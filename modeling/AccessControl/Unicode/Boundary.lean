import AccessControl.Unicode.Property
/-!
# Text boundaries

The classes by which the standard finds the boundaries of what a reader takes for one character, of
words and of sentences.
-/

namespace AccessControl.Unicode

/-- The characters of classes, by the names of a class. -/
abbrev BreakClasses := List (List String × Property)

/-- The characters of the class of a name. -/
def BreakClasses.named? (classes : BreakClasses) (name : String) : Option CharSet :=
  (classes.find? fun entry => entry.1.contains name).map (·.2.set)

namespace Property

/-- Marks that extend the character before them. -/
def extending : Property := .union graphemeExtend (.categories [.mc])

/-- Lower-case letters but for those of scripts that do not start sentences with capitals. -/
def lowerInSentence : Property :=
  .diff lowercase (.table ["bgfAfdiBQcC"])

/-- Capitals but for those of scripts that do not start sentences with capitals. -/
def upperInSentence : Property :=
  .diff (.union uppercase (.categories [.lt])) (.table ["kvgBQcC"])

end Property

open Property in
/-- The classes for characters as readers see them. -/
def characterClasses : BreakClasses :=
  [
    (["cr"], .table ["nA"]),
    (["control", "cn"], .table [
      "aJbBbRdrBGnAcbmAgurAdaqAcByGbxPdghjAjgLtuaPbzquDhwxHbtkzlBFdsEXjgFIL"]),
    (["extend", "ex"], .union graphemeExtend emojiModifier),
    (["l"], .table ["glkDRcfoqBC"]),
    (["lf"], .table ["kA"]),
    (["lv"], .table ["cndoA398bbA"]),
    (["lvt"], .table ["cndpBA398bBA"]),
    (["prepend", "pp"], .table ["chcFihAbxAouBdcAbrnAdugkApAjkBufAcblAbAjoAcvFbayArbA"]),
    (["regionalindicator", "ri"], .table ["hgokZ"]),
    (["spacingmark", "sm"], .table [
      "dktAcdAcCiDbBbyBchBgBcBccAcgCcoAcgCiAbBcbBciAgBcBekAbBdCbCcaCcjDcjBcgAcAbBbuAoBchBfCbC",
      "cbBcyBgGtBclAexAfiBclAgvAjBzBbsAcsvAhHbBniDcCeBbFiqBcgAbAvFfpAcfDcmAbeAeBclAcCbAcbHiB",
      "gpAvAcashBcAdkBbyPfmAbwAbwBeBcBehBcByAgbAcBfAjdB2bBbAblxjAbAexAbtCeBelAyBchAbwCjAoAdpC",
      "dBgqCbfBchAbD2cBvBdhBpAbBdzCiBdAedBgAbBbAcAjeBgDcAejCiBbAefAbBegAhAkbCjAjoEbBhAbAfmCiD",
      "eAdgAbdBckAprAoAecAhAcAifEeBbAnmBmAbwBiByzaCfjgCC"]),
    (["t"], .table ["grwDJcwxnBW"]),
    (["v"], .table ["gpcCTcwzwWcercAdD"]),
    (["zwj"], .table ["mdpA"])
  ]

open Property in
/-- The classes for words. -/
def wordClasses : BreakClasses :=
  [
    (["aletter", "le"], .table [
      "cnZgZbvAkAeAfWbBEbSLgBHeiEbBcDbAgAbCbAbTbDEbFIiGJbBLcDbAbBObAeaAbsBQbjBbDUbApBhBkCcApB",
      "bBDbdDKlAyBGjBeAfVeAjAdAxYhKfXbFrBPcgCBdAsAhJpPeHcBcVbGbAdDdAqAnBbCoBkAiFeBcVbG3bBbfDbA",
      "tCqIbCbVbGbBbEdAsApBxAlHcBcVbGbBbEdAbeBbCpArAbFdCbDdBbAbBdBdCdLwAcaHbCbWbPdAbaCcAcBbeA",
      "eHbCbWbJbEdAbfBbBpBrIbCbBOcAqAfCiCyFfRdXbIbAcGmbAclHbBJbbEkpBLbAfAcBQbMUbDcGbAbDcBObD",
      "cBGbDcGbAbDcObCEbDcCOblPqDHcFdXVcQbZfCWdKhRnSoRoMbCgtDKhEcBHbAfCRkBEirWjeBUrHccBDnBkBR",
      "baBJbpCkBJcKfBQcCbpDbFbBdAfHJcmKRcFcBLcFcH3bAbBEcCAbGbAdCbGdDcFeMfCbGemAnAqMdxAeAcJbAdE",
      "gA2bAbDbKcDfEeArBObfhBZcruIUgDdBmBLbAfAcCDhAqWjG7bGdcAsbAcbBhsBQbDPrBFbptoBSUcpBTcKIdP",
      "kBuBUqBEcDByHPcBbAbHvPbCbDbWbdBZoBXckFdAbBlBBkWzBChBUbcAbwBOxCbHfsKhCmF2cFjGbGbCFgEK",
      "bdQNRmWeBWnguGmEceDTbhNYsCLcCBboLemEbFEbkZgZcrBEdF2cFcCbjLbZbSbBbOcNbiEScrCAkhBCdBWbvBF",
      "nBDfBLkBDcBJeHbEbqGBsBJeBJeBNiBZmKbObGbBbKbObGbBdBZmLYjVkHyFbBPbIcrFcAbBRbBdAcWkWjBEcnS",
      "bBkVkZcsCDgBcmApDbCbBCbqBCdBCbjHbBBbbCBkVkSnRegCUcdBYnBYnBJbmBBjWjqBPgBqCchBCkAiVbqRbuU",
      "bbWmCAcfBcAnBSbgYbaBJbdAcAiBIdAmBVoDvAbAbjRbYtBclGbAbDbObJhBUbmHcBcVbGbBbEdAsAmEbeJbAcA",
      "bBLbAzAbAbsCAsDuCbeBVuBbAhcBUbpDbkBVuAchBQnAmpBRemCLbfHcAcHbBbXpAbAdqHcBMqAbAbcAkBNhAvA",
      "lBTtAsCUhrBGbfIbBKrAbxBDeiGbBbBLvAzFbBbBFoAmpSpAbMbBHeuAdbBJLdyEGrHNdxkDSpBPFrFzFXQfWK",
      "kddBDcpuVWhBErDArBDsBVqDbfUfSqqBSidCLeyCWfAcoMcmBbAbcvkECfMdIhJiwkDGbCSbBcAcBcDbLbAbG",
      "bCMbDcHbGbBBbDbEbAdGbNBcYbYbBEbYbBEbYbBEbYbBEbYbHcsyBEgFkbCJfqBSkGqAmjBDsBRsqBBiuBDcA",
      "tbGbDbBbObHOchCPhAbuiDbBAbBbAcAbJbD2bAgAeA2bAbCbBbAcA4bAbBbAcDbG2bDbAbJbQfCbEbQyeZ2gZ"]),
    (["cr"], .table ["nA"]),
    (["doublequote", "dq"], .table ["biA"]),
    (["extend"], .diff (.union extending emojiModifier) (.table ["mdpA"])),
    (["extendnumlet", "ex"], .table ["drAmbfApBtAdgaoByCjfA"]),
    (["format", "fo"], .table ["grAcbmAgurAdatBbaEbxEbJdghjAjpCtuaPbzquDhwxHbtkzmA"]),
    (["hebrewletter", "hl"], .table ["cfgBAeDdovyAbJbMbEbA2bBbJ"]),
    (["katakana", "ka"], .table ["sgnEdxBdDMbDjgPiaBUbDJczheCDcoucDbGbBbAlbCbyAoD"]),
    (["lf"], .table ["kA"]),
    (["midletter", "ml"], .table ["cgAeuAbbrAsdAfsAjxyAdgbbAcnAhoA"]),
    (["midnum", "mn"], .table ["bsAoAbgcAucAfaBdqApfAjffAdgchAdAhbAoA"]),
    (["midnumlet", "mb"], .table ["buAmcfBkAdgdpAgyAgA"]),
    (["newline", "nl"], .table ["lBeqAlzmB"]),
    (["numeric", "nu"], .table [
      "bwJcewFdmJbAejAsJhqJhqBdcAfbJ9eoJdsJeoJcsJksJcsJctqJbmJloJeyKgjJgJhaJdiJfeJgJcaeoJbacJ",
      "bmJhqJwJdiJpqJbfmcJcckJdfyJgJbeqJczApAbiJciJfoJksJneJeoJokJdyJgTcyJqgJdyJzmJdiJjmJcsJ",
      "qgJyygJdmcJdiJfeJuoJbkdyJecqBXdncJqgJtiJjnJbgvJhbaJ"]),
    (["regionalindicator", "ri"], .table ["hgokZ"]),
    (["singlequote", "sq"], .table ["bnA"]),
    (["wsegspace"], .table ["bgAimhAdpnGbCdgAfxwA"]),
    (["zwj"], .table ["mdpA"])
  ]

open Property in
/-- The classes for sentences. -/
def sentenceClasses : BreakClasses :=
  [
    (["aterm", "at"], .table ["buAmcrAdgdpAhfA"]),
    (["cr"], .table ["nA"]),
    (["close", "cl"], .table [
      "biAeCbxAbAbdAbAbtApAfmsDcunBdpjHzBkBccBoByjDbdBbpgFhNdbBbfJpnVclDbgBbnmNoBcJyAsHqlJcHbC",
      "czrqBihBbcPcBqFgnBbxAbAbdAbA2bBdposC"]),
    (["extend", "ex"], .union extending (.table ["mdpA"])),
    (["format", "fo"], .table ["grAcbmAjiAgliAdaqAcBbaEbxEbJdghjAjpCtuaPbzquDhwxHbtkzmA"]),
    (["lf"], .table ["kA"]),
    (["lower", "lo"], lowerInSentence),
    (["numeric", "nu"], .table [
      "bwJcewFdmJbBeiAsJhqJhqBdcAfbJ9eoJdsJeoJcsJksJcsJctqJbmJloJeyKgjJgJhaJdiJfeJgJcaeoJbacJ",
      "bmJhqJwJdiJpqJbfmcJcckJdfyJgJbeqJczApAbiJciJfoJksJneJeoJokJdyJgTcyJqgJdyJzmJdiJjmJcsJ",
      "qgJyygJdmcJdiJfeJuoJbkdyJecqBXdncJqgJtiJjnJbgvJhbaJ"]),
    (["oletter", "le"], .table [
      "rbAeDiaAbkGgLbaAbAfdAsqAeoBAeEbsBQbjBbDUbApBhBkCcAqAbBDbdDKlAyBGjBeAfVeAjAdAxYhKfXbFrBP",
      "cgCBdAsAhJpPeHcBcVbGbAdDdAqAnBbCoBkAiFeBcVbG3bBbfDbAtCqIbCbVbGbBbEdAsApBxAlHcBcVbGbBbE",
      "dAbeBbCpArAbFdCbDdBbAbBdBdCdLwAcaHbCbWbPdAbaCcAcBbeAeHbCbWbJbEdAbfBbBpBrIbCbBOcAqAfCiC",
      "yFfRdXbIbAcGcgBVbBmGcgBbAbEbXbAbJbBjAcEbAvDbgAclHbBJbbEelBQuAqFeDdAdBhCeMmAcnBQcMTbDcG",
      "bAbDcBObDcBGbDcGbAbDcObCEbDcCOblPejXVcQbZfCWdKhRnSoRoMbCpBZbjAeAcpDKhEcBHbAfCRkBEbxBDcE",
      "lBReZccWjCAdeAdpBUrHccBDnBkBRbaBJbpCkBJsBQcCbpDbFbBdAbpqDctCcDektCDhAqWjG7bGdcAsbCzIhE",
      "cEeDHgCbDLbDfBQbDPrBFbwPtsJTNcmBGUEcpBTcKIdPkBcoAqAbgDBbnIeaAgAdzAdGbCbDbWbdBZoBXckFdA",
      "bBlBBkWzBChBUbcAqEbJkEbBOxCbHuWdAdBXbAdBcEcAbAyCcKhCmF2cFjGbGfpBIbdQNRmWeBWmncOBcEBcpA",
      "bJbMbEbA2bBbEDbhNYsCLcCBboLemEbFEebCDcBEdF2cFcCbjLbZbSbBbOcNbiEScrCAkhBCdBWbvBFnBDfBL",
      "kBDcBJeHbEesCZduBNiBZdoBZmLYjVkHzBevFcAbBRbBdAcWkWjBEcnSbBkVkZcsCDgBcmApDbCbBCbqBCdBC",
      "bjHbBBbbCBkVkSnRegCUhbBJbmFbfAkmBPgBqCchBCkAiVbqRbuUbbWmCAcfBcAnBSbgYbaBJbdAcAiBIdAmBV",
      "oDvAbAbjRbYtBclGbAbDbObJhBUbmHcBcVbGbBbEdAsAmEbeJbAcAbBLbAzAbAbsCAsDuCbeBVuBbAhcBUbpD",
      "bkBVuAchBQnActBAblGhdBRidHcAcHbBbXpAbAdqHcBMqAbAbcAkBNhAvAlBTtAsCUhrBGbfIbBKrAbxBDeiGbB",
      "bBLvAzFbBbBFoAmpSpAbMbBHeuAdbBJLdyEGrHNdxkDSpBPFrFzFXQfWKkddBDcpuVWhBErDArBDsBVqDbfUfS",
      "qqBSpnCWfAcoMcmBbAbcJBZiBVPbpJnfrDbGbBbLEpAbdCcAoDiPFdkuECfMdIhJnbcAthBSkGqAmjBDsBRsqBB",
      "iuBDcAtbGbDbBbObHOfeAbuiDbBAbBbAcAbJbD2bAgAeA2bAbCbBbAcA4bAbBbAcDbG2bDbAbJbQfCbEbQ",
      "goaCLFBbgGDTgINcINPoLBKpXXdqwUVcfyHHYfGFF"]),
    (["scontinue", "sc"], .table ["bsBmBbgcAskAgsBswAgbxAfAdbeBgauAdaawBbBbcBbdBcBcAkAgmBmBcuA"]),
    (["sterm", "st"], .table [
      "bhAbdAcabAfrCgyAbrCjmAcjAbAdBlhBcpwBbekAeBbdtAhqBgbBbtAfAmcBnqDggBkBcBbdChfBcnBbkuBjC",
      "euxCluAnAwBqnAbshwAkkBitAdAosBdiBdrAfwBfrCfoBjpAbfcwAcBclBgnAbdAcnAedwBbxdEbsDhhBenDexC",
      "ezBgAqBdkBbBeeAlmBenBojBfOebBjpCtxAbAjrBdjBqeBbaqBcwBbcmbBfdAcnBlAvhBlkAbdogAlimA"]),
    (["sep", "se"], .table ["fdAlzmB"]),
    (["sp"], .table ["jAbBtAexAihjAdpnKbkAbvAfxwA"]),
    (["upper", "up"], upperInSentence)
  ]

end AccessControl.Unicode
