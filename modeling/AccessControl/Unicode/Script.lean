import AccessControl.Unicode.RangeText
/-!
# Scripts

The characters of every script, and those used with it: a mark or a sign may be used with several
scripts and belong to none of them.
-/

namespace AccessControl.Unicode

structure Script where
  /-- The names without case, blanks and hyphens. -/
  names : List String
  /-- The characters that belong to the script. -/
  own : List String
  /-- The characters used with the script; none are given when these are its own. -/
  used : List String

namespace Script

def all : List Script :=
  [
    ⟨["adlam", "adlm"], ["hdeuCXeJeB"], ["cihAbgAjwoAfhhAglriCXeJeB"]⟩,
    ⟨["ahom"], ["ebrcBAcOeW"], []⟩,
    ⟨["anatolianhieroglyphs", "hluw"], ["esseWK"], []⟩,
    ⟨["arabic", "arab"], [
      "chcEbFbNbCbBFbJlZbEDbBHdcBVjgBEbBfCWbBCdntwEKqNYcDBcCBhAbgPeiEbFEfvnBEcpCcdDdglsDbBAbB",
      "bAcAbJbD2bAgAeA2bAbCbBbAcA4bAbBbAcDbG2bDbAbJbQfCbEbQcaB"], [
      "chcEbIGbBHdcBVjgBEbBfCWbBCivnAfhhAczraEKqRCcCBhAbgPeiEbFEbmhBBeieBEcpCcdDdglsDbBAbBbAcA",
      "bJbD2bAgAeA2bAbCbBbAcA4bAbBbAcDbG2bDbAbJbQfCbEbQcaB"]⟩,
    ⟨["armenian", "armn"], ["bzdBLcBXcCdozjE"], ["bdwAvgBLcBXcCdozjE"]⟩,
    ⟨["avestan", "avst"], ["dxcyCBdG"], ["hbArfsBdfqcCBdG"]⟩,
    ⟨["balinese", "bali"], ["kfwCYbBX"], []⟩,
    ⟨["bamum", "bamu"], ["clcqDJcvcqVW"], []⟩,
    ⟨["bassavah", "bass"], ["fhkiBDcF"], []⟩,
    ⟨["batak", "batk"], ["kngBZiD"], []⟩,
    ⟨["bengali", "beng"], ["dpoDbHcBcVbGbAdDcIcBcDiAeBbEcY"],
      ["bayAcmuBrBbaDbHcBcVbGbAdDcIcBcDiAeBbEcYhdhAbAcBbA2iAcAeAcCcbafA"]⟩,
    ⟨["bhaiksuki", "bhks"], ["edoiIbBSbNkBC"], []⟩,
    ⟨["bopomofo", "bopo"], ["bcsBrlxBQeiBF"], ["bbjAbCnAqBrbxCeJbMkDcAgAhnAjBQeiBFczltBkwE"]⟩,
    ⟨["brahmi", "brah"], ["dzaeCZeBJjA"], []⟩,
    ⟨["braille", "brai"], ["pdwJV"], []⟩,
    ⟨["buginese", "bugi"], ["jwaBBcB"], ["jwaBBcBccktA"]⟩,
    ⟨["buhid", "buhd"], ["iuyT"], ["iunBjT"]⟩,
    ⟨["canadianaboriginal", "cans"], ["hoyYPvoCRdtpqP"], []⟩,
    ⟨["carian", "cari"], ["dtymBW"], ["hbAlzmAcAfgdAdclqBW"]⟩,
    ⟨["caucasianalbanian", "aghb"], ["duxsBZlA"], ["bdsA2bsAdtqnBZlA"]⟩,
    ⟨["chakma", "cakm"], ["dzkaCAbR"], ["dtmJckeJdtfqCAbR"]⟩,
    ⟨["cham"], ["cmjwCCjNcJcD"], []⟩,
    ⟨["cherokee", "cher"], ["hlgDHcFcfjeDB"], ["bdoCbAgBwBlBgfuDHcFcfjeDB"]⟩,
    ⟨["chorasmian", "chrs"], ["dyxcBB"], []⟩,
    ⟨["common", "zyyy"], [
      "aCMbaFbaBUbObExAbfArhBMfEcTemAjAgAbAynAgAoAdAbgAgaAtwAezBbvtAppDleAcglCctBhvBbAbvhAnAhD",
      "bFbCcAbdtLcDIbKdKbOrBGclBLbCcFbBAbQbpCeZPwKvBJRjwYDcBFbEAtsDPpmUbAbYpHeDdnBdAdmBfrPbgBL",
      "jAbwCLbfDCbvAdkGLjtoCLbhsiBHdyCgjJjkAgeApfAoBbezqBiaJwBIbSbDfrAbBFbaFbaKkAbtBcmGbGkEjyC",
      "eBSdIdcMbzBSiuBAcshwDfvgJPgQTgaELciJLkBMcCJdQiBhBDeCIifTmTmDIjYffDGbCSbBcAcBcDbLbAbGbCM",
      "bDcHbGbBBbDbEbAdGbNBcLFcBXhthCPcyCIbbeBReDVmOcObObBKkGRceZbBnBReIhBoFfyBLVeQdMdEOeDQgL",
      "eApLeCDiJgBNiBDcLeBckNBmNcMdJfCDhOcKgIhFQbDXbsuxbAbeDR"], [
      "aCMbaFbaBUbLbBbExAbfArhCbJbAdAbIbAbFfEcTewAgAbAynAihAtwAcauAppDgdbLcBGbBEbJbBbGbKdKbO",
      "rBGclBLbCcFbBAbQbpCeZPwKvBJRjwYDcBFbEAtsWbXcJbDbAbZqcAdA2nAvAujXbfAbxOmDgfJfDRbfAjtoCL",
      "bhsqZdyCbloAoBbfhsJwUcLbSbDfrAbBF2baFexGbGkEpmMbzBScynbJPgQTgaELciJLkBMcCJdQiBhBDeCIifT",
      "mTmDIbbGffDGbCSbBcAcBcDbLbAbGbCMbDcHbGbBBbDbEbAdGbNBcLFcBXhthCPcyCIbbeBReDVmOcObObBKkGR",
      "ceZbBnBReIxFfyBLVeQdMdEOeDQgLeApLeCDiJgBNiBDcLeBckNBmNcMdJfCDhOcKgIhFQbDXbsuxbAbeDR"]⟩,
    ⟨["coptic", "copt", "qaac"], ["bmgNpjkELfG"], ["hbAwmAdBbAeeBeeNpjkELfGktAdcpcBB"]⟩,
    ⟨["cuneiform", "xsux"], ["efbsBJLdyEGbElHN"], []⟩,
    ⟨["cypriot", "cprt"], ["dvzkFcAbBRbBdAcA"], ["dtimCeBSdIcomFcAbBRbBdAcA"]⟩,
    ⟨["cyprominoan", "cpmn"], ["ekyyDU"], ["dtimBrqkDU"]⟩,
    ⟨["cyrillic", "cyrl"], ["bnkFCcGMivoKgeAcyAgfnBFbtoaDRbhecBdhpgCJbhA"],
      ["bayAcpC3bAcAfAjeLRivoKgeAcyAexAgapBFcpAbtlkDRbhecBdhpgCJbhA"]⟩,
    ⟨["deseret", "dsrt"], ["dumaDB"], []⟩,
    ⟨["devanagari", "deva"], ["dkqDCeOcZcijgBFbremJ"], ["bayAcjrDEcBQhieBMbBbnaAbzfrJgkBFbremJ"]⟩,
    ⟨["divesakuru", "diak"], ["eckuGcAcHbBbBDbBcLjJ"], []⟩,
    ⟨["dogra", "dogr"], ["ecayCH"], ["domLcidcJbqioCH"]⟩,
    ⟨["duployan", "dupl"], ["gmdsECfMdIhJcD"], ["hbAwtBbAyBqihAfuqlECfMdIhJcH"]⟩,
    ⟨["egyptianhieroglyphs", "egyp"], ["eldgBQRkFXQ"], []⟩,
    ⟨["elbasan", "elba"], ["duvwBN"], ["hbAwrAdtscBN"]⟩,
    ⟨["elymaic", "elym"], ["dyyyW"], []⟩,
    ⟨["ethiopic", "ethi"],
      ["gvgCUbDcGbAbDcBObDcBGbDcGbAbDcObCEbDcCOcBFdZjvaWjG7bGbvkcF2cFjGbGepyfGbDbBbO"],
      ["becAfrdCUbDcGbAbDcBObDcBGbDcGbAbDcObCEbDcCOcBFdZjvaWjG7bGbvkcF2cFjGbGepyfGbDbBbO"]⟩,
    ⟨["garay", "gara"], ["dxzcBLdBCiB"], ["choAoAdAdvquBLdBCiB"]⟩,
    ⟨["georgian", "geor"], ["ghsBLbAfAcBQbDejwBQcCgeaBLbAfA"],
      ["hbAbvlAefeBLbAfAcBVejwBQcCbjmAeunBLbAfAjzA"]⟩,
    ⟨["glagolitic", "glag"], ["qrgDRgizgGbQcGbBbE"],
      ["hbAwpAbAosAcAjxAeirAfviAekrDRspAbtnfAeotkGbQcGbBbE"]⟩,
    ⟨["gothic", "goth"], ["dueaBA"], ["hbAwqBcAboAdsyoBA"]⟩,
    ⟨["grantha", "gran"], ["eadsDbHcBcVbGbBbEcIcBcCcAgAfGcGdE"],
      ["dntBrByqNgkaAbBbeCdBbnaAdnrjDbHcBcVbGbBbEbJcBcCcAgAfGcGdEerrBbA"]⟩,
    ⟨["greek", "grek"], [
      "bhwDbCcDbAeAbAbCbAbTbCKoPjnqEbyEeEdgAmiVcFcBLcFcH3bAbBEcCAbObNcFbScCbIljAcajeAbgniDArA",
      "daxrCR"], [
      "hbAwmBcA2bAkAbuAcAbqHcDbAeAbAbCbAbTbCKoPjnqEbyEeEdgCmgVcFcBLcFcH3bAbBEcCAbObNcFbScCbI",
      "dqAhsAcajeAbgniDArAdaxrCR"]⟩,
    ⟨["gujarati", "gujr"], ["dzlCbIbCbVbGbBbEcJ2bCcApDcLhG"],
      ["dntBrBkxCbIbCbVbGbBbEcJ2bCcApDcLhGchnsJ"]⟩,
    ⟨["gunjalagondi", "gong"], ["eebwFbBbBKbBbFhJ"], ["hbAdhkBeaniFbBbBKbBbFhJ"]⟩,
    ⟨["gurmukhi", "guru"], ["dunCbFeBcVbG3bBcAbEeBcCdAhDbAhQ"],
      ["dntBrBfzCbFeBcVbG3bBcAbEeBcCdAhDbAhQchszJ"]⟩,
    ⟨["gurungkhema", "gukh"], ["fdrsCF"], ["donAfadeCF"]⟩,
    ⟨["han", "hani"], [
      "rpwZbDKmIFbvAbAzIoDblcJTNcmBFBJbhsiOBcEBbsiiBmBccokCLFBbgGDTgINcINPoLBKpXXdqwUVcfyHHY",
      "fGFF"], [
      "hbAriuZbDKmIFbaPbC3bMcAgIhfAfsPbgBLjAbwBNceBWpLbzAdkYkEdsBEbJTNcmBFBJcqyHbfbcOBcEBbhrB",
      "kwEbqpoBmBblraRlryBfesCLFBbgGDTgINcINPoLBKpXXdqwUVcfyHHYfGFF"]⟩,
    ⟨["hangul", "hang"], ["glkJVlleBjxDPejBEcnBEbtanBCytQNRmWeBWpaiBEdF2cFcC"],
      ["glkJVljlCeJbMoCgAhnAcbDPejBEcnBEbtanBCytQNRmWeBWomzBkwEcgBEdF2cFcC"]⟩,
    ⟨["hanifirohingya", "rohg"], ["dxwqBNiJ"], ["choAoAdAbgAfrAdvhjBNiJ"]⟩,
    ⟨["hanunoo", "hano"], ["itsU"], ["itsW"]⟩,
    ⟨["hatran", "hatr"], ["dwiaSbBfE"], []⟩,
    ⟨["hebrew", "hebr"], ["ccvCCiBAeFdovwZbEbA2bBbJ"], ["bdvByyCCiBAeFdovwZbEbA2bBbJ"]⟩,
    ⟨["hiragana", "hira"], ["shdDHgCfpevLAsAbdCymvA"],
      ["serCeJbMqFbAeBdDHcHdmBcztgBkwEkAbtBcourLAsAbdCymvA"]⟩,
    ⟨["imperialaramaic", "armi"], ["dwbwVbI"], []⟩,
    ⟨["inherited", "qaai", "zinh"], [
      "bdoEHkrBrkKbaAbciDgoxBEttCbMbGeAgAdBhqCLueBhmBGftxDedBczujPqNblnAisAgfaActcuBTcWuyCrHcG",
      "beDbtlhiJF"],
      ["bedAcAbLbBdGcAcPbBbRbEbDcgmBgoxBEbdbCBbAbEueBhmBFdfsqPqNblnAczqoBTcWuyCrHcGbeDbtlhiJF"]⟩,
    ⟨["inscriptionalpahlavi", "phli"], ["dxgqSfH"], []⟩,
    ⟨["inscriptionalparthian", "prti"], ["dxfkVcH"], []⟩,
    ⟨["javanese", "java"], ["cmeyCZcJeB"], ["cmeyCZbKeB"]⟩,
    ⟨["kaithi", "kthi"], ["dzfcCOkA"], ["dooJnxxAbufeJbnmsCOkA"]⟩,
    ⟨["kannada", "knda"], ["etcMbCbWbJbEcIbCbDhBgBbDcJbC"],
      ["dntBrBbeoMbCbWbJbEcIbCbDhBgBbDcJbCgaeAbBgAxAbAcasxF"]⟩,
    ⟨["katakana", "kana"], ["skvDLcCjgPiaBUbDJczheJbBScoucDbGbBbAlbCbyAoD"],
      ["bdtAbdAqztCeJbMqFbAeBdnDdDRjgPiaBUbDJcywbBkwCKcouaDbGbBbAlbCbyAoD"]⟩,
    ⟨["kawi"], ["eerwQbBOdBC"], []⟩,
    ⟨["kayahli", "kali"], ["cmaaBTbA"], ["cmaaBV"]⟩,
    ⟨["kharoshthi", "khar"], ["dwtcDbBfHbCbBCcCeJhI"], []⟩,
    ⟨["khitansmallscript", "kits"], ["fjiiAkgxSBbpA"], []⟩,
    ⟨["khmer", "khmr"], ["ixkDPcJgJssBF"], []⟩,
    ⟨["khojki", "khoj"], ["dztwRbBU"], ["ediJchoiJbobmRbBU"]⟩,
    ⟨["khudawadi", "sind"], ["eaaqCGfJ"], ["domBcidmJboigCGfJ"]⟩,
    ⟨["kiratrai", "krai"], ["fiiiCF"], []⟩,
    ⟨["lao", "laoo"], ["fmvBbAbEbXbAbWcEbAbGbJcD"], []⟩,
    ⟨["latin", "latn"], [
      "cnZgZbvApAfWbBEbRGbnEjxbBLgBWfDfMbCRcnJVofAnAqMflBgAbbArBOectBFbulmDXdCOcBbAbHvNbfkBQbI",
      "bDbedqGbokZgZdcfFbBPbIddnpBEgF"], [
      "cnZgZbvAmAcAfWbBEbRGdAkAbCbAjAbAgEbbObBbAmAcChBbBbmAfAeMkrBbveBcxkAeoiBLgBWfDfMbCRcfA",
      "hJVlrAcnAnAqMdfAcfBgAbbArBOectBFprAbtumHbaDXdCOcBbAbHvNlqAttBQbIbDbedqGbokZgZdcfFbBPbI",
      "ddnpBEgF"]⟩,
    ⟨["lepcha", "lepc"], ["kpsCDdOdC"], []⟩,
    ⟨["limbu", "limb"], ["jmeBEbLeLeAdL"], ["donAfxqBEbLeLeAdL"]⟩,
    ⟨["lineara", "lina"], ["dvfsLYjVkH"], ["dtitBSbvgLYjVkH"]⟩,
    ⟨["linearb", "linb"], ["dsyqLbZbSbBbOcNbiES"], ["dsyqLbZbSbBbOcNbiESfCeBSdI"]⟩,
    ⟨["lisu"], ["ckkuBVbumaA"], ["bayAqArdkBbsfsBVbumaA"]⟩,
    ⟨["lycian", "lyci"], ["dtxgBC"], ["mgoAdhqrBC"]⟩,
    ⟨["lydian", "lydi"], ["dwkmZfA"], ["hbArftAdexqZfA"]⟩,
    ⟨["mahajani", "mahj"], ["dzncBM"], ["hbAdhkLcidcJbnusBM"]⟩,
    ⟨["makasar", "maka"], ["eeqqY"], []⟩,
    ⟨["malayalam", "mlym"], ["eyaMbCbBYbCbFePcZ"], ["dntBrBbjmMbCbBYbCbFePcZfveAxAcaszC"]⟩,
    ⟨["mandaic", "mand"], ["ddgBBcA"], ["cjoAtrBBcA"]⟩,
    ⟨["manichaean", "mani"], ["dxamBMeL"], ["cjoAduqxBMeL"]⟩,
    ⟨["marchen", "marc"], ["edsqBFcVbN"], []⟩,
    ⟨["masaramgondi", "gonm"], ["edyeGbBbBRdAbBbIiJ"], ["domBeajqGbBbBRdAbBbIiJ"]⟩,
    ⟨["medefaidrin", "medf"], ["fiseDM"], []⟩,
    ⟨["meeteimayek", "mtei"], ["cmsmWhtBTcJ"], []⟩,
    ⟨["mendekikakui", "mend"], ["hcuyHOcP"], []⟩,
    ⟨["meroiticcursive", "merc"], ["dwpkXeTcBT"], []⟩,
    ⟨["meroitichieroglyphs", "mero"], ["dwoeBF"], ["mgrAdkhmBF"]⟩,
    ⟨["miao", "plrd"], ["fizoCWeCEhQ"], []⟩,
    ⟨["modi"], ["ebhgCQlJ"], ["clsaJbpowCQlJ"]⟩,
    ⟨["mongolian", "mong"], ["jciBcAbTgDKhBQdscbM"], ["jciZgDKhBQcwaAfztBfDdjfwM"]⟩,
    ⟨["mro", "mroo"], ["fheuBEbJeB"], []⟩,
    ⟨["multani", "mult"], ["dzyuGbAbDbObK"], ["dykJdwaaGbAbDbObK"]⟩,
    ⟨["myanmar", "mymr"], ["gboGDcgayBEdtBFbpamT"], ["gboGDcfucAgvBEdtBFbpamT"]⟩,
    ⟨["nabataean", "nbat"], ["dweiBEiI"], []⟩,
    ⟨["nagmundari", "nagm"], ["hbpoBP"], []⟩,
    ⟨["nandinagari", "nand"], ["ecqyHcBTcK"], ["domBbimJgbhAiAhAcasrFbqysHcBTcK"]⟩,
    ⟨["newtailue", "talu"], ["jrcBReZgKdB"], []⟩,
    ⟨["newa"], ["eanoDNbE"], []⟩,
    ⟨["nko", "nkoo"], ["cyiCGcC"], ["choAoAdAqaCGcCdowsB"]⟩,
    ⟨["nushu", "nshu"], ["fjifAyvmPF"], []⟩,
    ⟨["nyiakengpuachuehmong", "hmnp"], ["haeaBSdNcJeB"], []⟩,
    ⟨["ogham", "ogam"], ["inoBC"], []⟩,
    ⟨["olchiki", "olck"], ["ksuBV"], []⟩,
    ⟨["olonal", "onao"], ["hbzkBQeA"], ["domBgykwBQeA"]⟩,
    ⟨["oldhungarian", "hung"], ["dxrsBYnBYhF"], ["mgoAcAfgdApAdgegBYnBYhF"]⟩,
    ⟨["olditalic", "ital"], ["duceBJjC"], []⟩,
    ⟨["oldnortharabian", "narb"], ["dwyaBF"], []⟩,
    ⟨["oldpermic", "perm"], ["dufgBQ"], ["hbAwmAfCkAodAdsmuBQ"]⟩,
    ⟨["oldpersian", "xpeo"], ["duiiBJeN"], []⟩,
    ⟨["oldsogdian", "sogo"], ["dyqiBN"], []⟩,
    ⟨["oldsoutharabian", "sarb"], ["dwwuBF"], []⟩,
    ⟨["oldturkic", "orkh"], ["dxmuCU"], ["mgoAfgfAdfzzCU"]⟩,
    ⟨["olduyghur", "ougr"], ["dyuqZ"], ["cjoAdusvAbsfZ"]⟩,
    ⟨["oriya", "orya"], ["eejCbHcBcVbGbBbEcIcBcChCeBbEcR"],
      ["dntBrBpvCbHcBcVbGbBbEcIcBcChCeBbEcRgpeAxA"]⟩,
    ⟨["osage", "osge"], ["dusuBJeBJ"], ["bdpAcAgAcyAdtlvBJeBJ"]⟩,
    ⟨["osmanya", "osma"], ["duqyBDcJ"], []⟩,
    ⟨["pahawhhmong", "hmng"], ["fhmeCRkJbGbUfS"], []⟩,
    ⟨["palmyrene", "palm"], ["dwdcBF"], []⟩,
    ⟨["paucinhau", "pauc"], ["edcaCE"], []⟩,
    ⟨["phagspa", "phag"], ["clsqCD"], ["jckBbAdcjAfzuAbtnxCD"]⟩,
    ⟨["phoenician", "phnx"], ["dwjgBBdA"], []⟩,
    ⟨["psalterpahlavi", "phlp"], ["dxhwRhDmG"], ["cjoAduyhRhDmG"]⟩,
    ⟨["rejang", "rjng"], ["cmbwBJlA"], []⟩,
    ⟨["runic", "runr"], ["iouCWdK"], ["iouDK"]⟩,
    ⟨["samaritan", "samr"], ["dauBTcO"], ["dauBTcOojqA"]⟩,
    ⟨["saurashtra", "saur"], ["clvcCRiL"], []⟩,
    ⟨["sharada", "shrd"], ["dzoyDR"], ["dntAhkfAbAcBcAcatrFcAbnwpDR"]⟩,
    ⟨["shavian", "shaw"], ["dupcBV"], ["hbAduiaBV"]⟩,
    ⟨["siddham", "sidd"], ["ebciCBcBL"], []⟩,
    ⟨["signwriting", "sgnw"], ["gwtkZBpEbO"], []⟩,
    ⟨["sinhala", "sinh"], ["fczCbRdXbIbAcGdAeFbAbHgJcCdulgT"],
      ["domBbolCbRdXbIbAcGdAeFbAbHgJcCfrpAdotqT"]⟩,
    ⟨["sogdian", "sogd"], ["dyseBP"], ["cjoAdwipBP"]⟩,
    ⟨["sorasompeng", "sora"], ["dzieYhJ"], []⟩,
    ⟨["soyombo", "soyo"], ["ecxsDE"], []⟩,
    ⟨["sundanese", "sund"], ["kkuCLjwH"], []⟩,
    ⟨["sunuwar", "sunu"], ["edlwBHoJ"], ["bdoBbAjAcAbcAdAecgkBHoJ"]⟩,
    ⟨["sylotinagri", "sylo"], ["clqeBS"], ["domBeyJchwiBS"]⟩,
    ⟨["syriac", "syrc"], ["cqyNbCHcCkmK"], ["bdrBcBbAvAcChBbAbcdAoBcAbgAkKbaAfnNbCHcCkmKiefAbA"]⟩,
    ⟨["tagalog", "tglg"], ["ismVjA"], ["ismVjAvB"]⟩,
    ⟨["tagbanwa", "tagb"], ["iweMbCbB"], ["iunBbpMbCbB"]⟩,
    ⟨["taile", "tale"], ["jpgBDcE"], ["bdoBfBdAezzJdkwBDcE"]⟩,
    ⟨["taitham", "lana"], ["jxgCKbBCcKgJgN"], []⟩,
    ⟨["taiviet", "tavt"], ["cmouCOyE"], []⟩,
    ⟨["takri", "takr"], ["ebmeCFgJ"], ["domBcidmJbptuCFgJ"]⟩,
    ⟨["tamil", "taml"], ["ejiBbFdCbDdBbAbBdBdCdLeEdCbDcAgAoUealhBXnA"],
      ["dntBrBuuBbFdCbDdBbAbBdBdCdLeEdCbDcAgAoUgkdAcbbkAboefAbAcdBetfBXnA"]⟩,
    ⟨["tangsa", "tnsa"], ["fhgqDAbJ"], []⟩,
    ⟨["tangut", "tang"], ["fjieAbfJBZiBDNtsI"], ["seaPtbAeqkmAbfJBZiBDNtsI"]⟩,
    ⟨["telugu", "telu"], ["eoeMbCbWbPcIbCbDhBbCcAcDcJhI"],
      ["dntBrBzqMbCbWbPcIbCbDhBbCcAcDcJhIgfaAxA"]⟩,
    ⟨["thaana", "thaa"], ["cvwBX"], ["choAoBcAcmJksBXdpgqAkA"]⟩,
    ⟨["thai"], ["fhxCFfBB"], ["bayAbaAbrAbtAeclCFfBB"]⟩,
    ⟨["tibetan", "tibt"], ["frsCTbBJeBMbBJbObGeB"], ["frsCTbBJeBMbBJbObGeBmevD"]⟩,
    ⟨["tifinagh", "tfng"], ["rcyCDhBoA"], ["bdqAbAcAbApzaCDhBoA"]⟩,
    ⟨["tirhuta", "tirh"], ["easmCTiJ"], ["dntBrBhkmAcaszJbpacCTiJ"]⟩,
    ⟨["todhri", "todr"], ["dvdgBZ"], ["bdpA2cAjAbAcwAdtwbBZ"]⟩,
    ⟨["toto"], ["hatkBE"], ["bayAgzslBE"]⟩,
    ⟨["tulutigalari", "tutg"], ["eaiqJbAcAbBLbJbAcAbDbJbBiB"],
      ["exaJgbqAbAcasxFhfAbojeJbAcAbBLbJbAcAbDbJbBiB"]⟩,
    ⟨["ugaritic", "ugar"], ["duhcBDbA"], []⟩,
    ⟨["vai", "vaii"], ["ckmqLN"], []⟩,
    ⟨["vithkuqi", "vith"], ["dvaeKbObGbBbKbObGbB"], []⟩,
    ⟨["wancho", "wcho"], ["havgCFfA"], []⟩,
    ⟨["warangciti", "wara"], ["echcDEmA"], []⟩,
    ⟨["yezidi", "yezi"], ["dylkBPbCcB"], ["choAoAdAcmJdwagBPbCcB"]⟩,
    ⟨["yi", "yiii"], ["cipkBSUdCC"], ["serBfJcHipAbqbcBSUdCCbiicE"]⟩,
    ⟨["zanabazarsquare", "zanb"], ["ecuqCT"], []⟩
  ]

/-- The script of a name. -/
def named? (name : String) : Option Script := all.find? fun s => s.names.contains name

/-- The characters that belong to a script. -/
def ownSet (s : Script) : CharSet := RangeText.decode s.own

/-- The characters used with a script. -/
def usedSet (s : Script) : CharSet := RangeText.decode (if s.used.isEmpty then s.own else s.used)

end Script

end AccessControl.Unicode
