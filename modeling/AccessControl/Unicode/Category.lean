import AccessControl.Unicode.RangeText
/-!
# General categories

Every character has one general category, named by two letters.  `Category.table` writes the
characters of a category; `Category.named?` knows the categories and their groups by name.
-/

namespace AccessControl.Unicode

/-- The general categories, by their two letters. -/
inductive Category where
  /-- Upper-case letters. -/
  | lu
  /-- Lower-case letters. -/
  | ll
  /-- Letters of two of which the first is upper case. -/
  | lt
  /-- Letters that modify another one. -/
  | lm
  /-- Letters without case. -/
  | lo
  /-- Marks without a width of their own. -/
  | mn
  /-- Marks with a width of their own. -/
  | mc
  /-- Marks around a character. -/
  | me
  /-- Decimal digits. -/
  | nd
  /-- Letters that are numbers. -/
  | nl
  /-- Other numbers. -/
  | no
  /-- Connectors. -/
  | pc
  /-- Dashes. -/
  | pd
  /-- Opening brackets. -/
  | ps
  /-- Closing brackets. -/
  | pe
  /-- Opening quotes. -/
  | pi
  /-- Closing quotes. -/
  | pf
  /-- Other punctuation. -/
  | po
  /-- Signs of mathematics. -/
  | sm
  /-- Currency signs. -/
  | sc
  /-- Modifying signs. -/
  | sk
  /-- Other signs. -/
  | so
  /-- Spaces. -/
  | zs
  /-- The end of a line. -/
  | zl
  /-- The end of a paragraph. -/
  | zp
  /-- Controls. -/
  | cc
  /-- Invisible format characters. -/
  | cf
  /-- The code points that are no characters. -/
  | cs
  /-- Private characters. -/
  | co
  /-- Characters not yet assigned. -/
  | cn
  deriving Repr, DecidableEq

namespace Category

def letters : List Category := [.lu, .ll, .lt, .lm, .lo]

def marks : List Category := [.mn, .mc, .me]

def numbers : List Category := [.nd, .nl, .no]

def punctuation : List Category := [.pc, .pd, .ps, .pe, .pi, .pf, .po]

def symbols : List Category := [.sm, .sc, .sk, .so]

def separators : List Category := [.zs, .zl, .zp]

def others : List Category := [.cc, .cf, .cs, .co, .cn]

/-- The names of categories and of their groups, without case, blanks and hyphens. -/
def byName : List (List String × List Category) :=
  [
    (["uppercaseletter", "lu"], [.lu]),
    (["lowercaseletter", "ll"], [.ll]),
    (["titlecaseletter", "lt"], [.lt]),
    (["modifierletter", "lm"], [.lm]),
    (["otherletter", "lo"], [.lo]),
    (["nonspacingmark", "mn"], [.mn]),
    (["spacingmark", "mc"], [.mc]),
    (["enclosingmark", "me"], [.me]),
    (["decimalnumber", "nd", "digit"], [.nd]),
    (["letternumber", "nl"], [.nl]),
    (["othernumber", "no"], [.no]),
    (["connectorpunctuation", "pc"], [.pc]),
    (["dashpunctuation", "pd"], [.pd]),
    (["openpunctuation", "ps"], [.ps]),
    (["closepunctuation", "pe"], [.pe]),
    (["initialpunctuation", "pi"], [.pi]),
    (["finalpunctuation", "pf"], [.pf]),
    (["otherpunctuation", "po"], [.po]),
    (["mathsymbol", "sm"], [.sm]),
    (["currencysymbol", "sc"], [.sc]),
    (["modifiersymbol", "sk"], [.sk]),
    (["othersymbol", "so"], [.so]),
    (["spaceseparator", "zs"], [.zs]),
    (["lineseparator", "zl"], [.zl]),
    (["paragraphseparator", "zp"], [.zp]),
    (["control", "cc", "cntrl"], [.cc]),
    (["format", "cf"], [.cf]),
    (["privateuse", "co"], [.co]),
    (["unassigned", "cn"], [.cn]),
    (["casedletter", "lc"], [.lu, .ll, .lt]),
    (["letter", "l"], letters),
    (["mark", "m", "combiningmark"], marks),
    (["number", "n"], numbers),
    (["punctuation", "p", "punct"], punctuation),
    (["symbol", "s"], symbols),
    (["separator", "z"], separators),
    (["other", "c"], others)
  ]

/-- The categories of a name. -/
def named? (name : String) : Option (List Category) :=
  (byName.find? fun entry => entry.1.contains name).map (·.2)

/-- The characters of a category. -/
def table : Category → List String
  | .lu => [
      "cnZdxWbGbhA27bAcA7bAcA22bAbB2bAdBbAbBbCcDbBbCdBbB2bAbBbAcAbBbCbAbBdAhA3cA7bAcA8bA2cAbC",
      "29bAhBbBcAbD4bAldAbAdAiAgAbCbAbBbQbIbjAcCdA11bAfAcAbBcBYbwA16bAjA26bAbB6bAcA47bAcBL",
      "ehdBLbAfAbbuDHdglAgBQcCmiA74bAjA48bAjHiFkHiHiFlA3bAiHcuD2mDmElDkcAeAdCcCcAdEgA2bAbDcDkB",
      "fAcjAdzgBVbwAbCcA2bAbDbAcAiC49bAiAbAeAbtyjA22bAtA13bAffA6bAdA30bAkAbAbB4bAeAbAcAbAdA9bA",
      "2bE7bAbDbAbBdAfA3bAyAbhahZbuzBNfgBJgaKbObGbBcqcBYgbVegoBFbgjwBFbmmqZ2baZbaAbBcAcBcDbH",
      "baZbaBbDcHbGbbBbDbEbAdGbbZ5baZbeY4bhYbhAgnlBH"]
  | .ll => [
      "dtZcgAbpXbH27bAbB7bAbB23bAcAbAbCcAbAcAdBeAcAdC2cA2bAcAbBbAcAdAbAcBcCgA2cA7bAbB8bAbBcAbA",
      "dA28bAbGcAcBbAeA3bAbCQbBAhlAbAdAdCsAbbBIbBdC11bAbEbAcAcBbzBV17bAjA26bAcA5bAbB48bAbwBO",
      "ehbBQcCbdgFdfuIbAenBRclMbBHdyA73bAbI48bAbIiFkHiHiFkHiHiNcH2iHiEbBgAdCbBiDcBiHkCbBkoAdB",
      "dAbbA2eAcBiDeAcbAebbBVbAdB3bAeAbBbFfA48bAbBhAbAeAmBLbAfAbtwdA22bAtA13bAffA5bAbC31bAbH",
      "2bAcA4bAeAbAcAbC10bA2fA7bAeAbAcAdA5bAbaAdAbfpBQfIhDBbeaiGmEbozZbvhBNfgBJfzKbObGbBcrbBY",
      "evVegoBFbgjwBFbmmkZbaGbRbaZbaDbAbGbK8baZbaBBbcYbFbaYbFbaYbFbaYbFbaYbFbAcsyJbTgFdudBH"]
  | .lt => ["rlA2cAbmAlfhH2iHmApAbvA"]
  | .lm => [
      "bamReLoEhAbAfdAfAskAiwAgiBkjBeAbfAjAdAgeAglAbvoAexAvtAcpmAedAxnArwFgsCKnAbiBKbanAnAqM",
      "emxBjhAhjAsbAbrEfAdtBdpCbqbuAbwcFkkAekAbcBerIdcAxAebCdBsbAwAfhAeeAvBdzDjAbfviAbtBczoF",
      "bBPbIccxAbgAbjnsDtoCboBveMcmBbAygqDbGbBsgnCJhtGbkfAbrbA"]
  | .lo => [
      "goApAjwAeDiaAbfvBAeDbtBFbJbjBbDUbAyBkCcAqAbBDbdDKlAyBGvVbqYhKfXbFrBOchCBdAsAhJqOeHcBcV",
      "bGbAdDdAqAnBbCoBkAiFeBcVbG3bBbfDbAtCqIbCbVbGbBbEdAsApBxAlHcBcVbGbBbEdAbeBbCpArAbFdCbDdB",
      "bAbBdBdCdLwAcaHbCbWbPdAbaCcAcBbeAeHbCbWbJbEdAbfBbBpBrIbCbBOcAqAfCiCyFfRdXbIbAcGcgBVbBmF",
      "chBbAbEbXbAbJbBjAcExDbgAclHbBJbbEelBQuAqFeDdAdBhCeMmAejMQbDcGbAbDcBObDcBGbDcGbAbDcObCE",
      "bDcCOblPejXVcQbZfCWgHhRnSoRoMbCpBZboAcpBIbCAhEcBHbAfCRkBEbxBDcElBReZccWjCAguBUrHccBDnB",
      "kBRbaBJbpCkBDejDbFbBdAbpqDenvCDyWjG7bGvfAcbAeDHiAbDLeAfBQbDPrBFbwPtsJTNcmBFCEbBRYcpBN",
      "iKHePkBcoAbxCRgnAdzAdGbCbDbWbdBZoBXckFdAbBlBBkWzBChBUbtEcIkEbBOxCbHuPbFdAdBXbAdBcEcAbA",
      "yBdKhAoF2cFjGbGfpBIbdQNRmWeBWmncOBcEBcpAbJbMbEbA2bBbEDbhNYsCLcCBboLemEbFEebJbBScBEdF2cF",
      "cCbjLbZbSbBbOcNbiESozBCdBWbvBFnTbHgBLkBDcBJeHeyCZduBNiBZdoBZmLYjVkHfwFcAbBRbBdAcWkWjBE",
      "cnSbBkVkZcsCDgBcmApDbCbBCbqBCdBCbjHbBBbbCBkVkSnRegCUhbBJbmDbAlsBPgBqCchBCkAiVbqRbuUbbW",
      "mCAcfBcAnBSbgYbaBJbdAcAiBIdAmBVoDvAbAbjRbYtBclGbAbDbObJhBUbmHcBcVbGbBbEdAsAmEbeJbAcAbBL",
      "bAzAbAbsCAsDuCbeBVuBbAhcBUbpDbkBVuAchBQnActBAblGhdBRidHcAcHbBbXpAbAdqHcBMqAbAbcAkBNhAvA",
      "lBTtAsCUhrBGbfIbBKrAbxBDeiGbBbBLvAzFbBbBFoAmpSpAbMbBHeuAdbBJLiwHNdxkDSpBPFrFzFXQfWK",
      "kddBDcpuVWhBErDArBDsBVbzUfSqtBNppCWfAgtJBZiBVPbpJnghLEpAbdCcAoDiPFdkuECfMdIhJnbcAthBS",
      "bhAmjBDsBRsqBAivBDcAtbGbDbBbObHObznDbBAbBbAcAbJbD2bAgAeA2bAbCbBbAcA4bAbBbAcDbG2bDbAbJbQ",
      "fCbEbQgoaCLFBbgGDTgINcINPoLBKpXXdqwUVcfyHHYfGFF"]
  | .mn => [
      "bdoEHkpEkfBSbA2bBbAcuKbwUqAdxGcFcBbDbjAbeBAdnKcgIjAyDbIbCbEbrCchIbqXbBFcdAbAeHeAdGkBbdA",
      "cgAeDiAuBbaAcBcfA2eBcCdAbeBdAlBcfAeEbBeAuBwFbAcgAcAbDiAhBlBbeAcjAmAbyAdAcdAbCfCbDhBlB",
      "bdAcgAcAgAfBuBbcBcfBeDiAuBbdAcuAhCbAdmAcGmHduAcIlGcvBbbA2bAcdNbEbBfKbBJjAdyDbFbBcBzBeC",
      "qDnAcBgApAbbbCbkkCbdB2beBcmBbGiAcKjAbtCbAenBbiAeoCeBjAgCilBcAcgAbG2bAcHgJcAbwNbPbxDbwA",
      "bEbAfAboImBbgDcBbCceAbBdAbCcgHcBfwCbMbGeAgAdBhqCLbbsMeAdLeocCflAdsBFviDedBbsqeAeJbgBdcB",
      "kmAdAeAzBfAfvBbaRnAbmHzKbuCbwAcDcBbnAcpF2cBmAiAbvAbzAbCcBfBbAbqBiAjeAcAeAbdzsAbcjPqP",
      "bllAisAftEcmgCbBfDboCeAgjBwbDcnEmfBdbDcsKbxDetAccObpAcBkCbxDcBhAcjCbkEbHckAmBcaIkDcAdrC",
      "cAbBgAcAgbAdHvBcfBdAblGdEcsFnA2bAoBdhHcCbAxAdgFbAeBbBjeDgBbBbbBdhHcAbBecAbAcFbAdxAbAcD",
      "bEjzIbBjwBbAeAfoDcBeAbgJboFcDiAjFcCbuMbBpqGbFbAdeVcG2bBesFdAbBbGbAcuBdAbAnjBlBcaEfAbAxA",
      "hxtAgOqyyLdCdsaEchGboiAclDddAbdbkBgyzBTcWuyCrHcGbeDfsCcydCCeBXiAoAwEbOcaiGbQcGbBbEdwA",
      "geGolAcjDtoDjuBbciGefGbtcivJF"]
  | .mc => [
      "dktAcdAcCiDbBbyBcgCgBcBkAbrAcgCcoAcgCiAbBcbBcgAbAgBcBkAdyBbBdCbCkAbpCcjDcjBcgAbEcBbBjB",
      "bcAoBcgCfCbCkAbqBcxCgHsBmsBclAgpBeAgAcBzBkCcGvBcFcAkCclsAbeAezAhHbBniDcCeBbFiqBcgAbAjA",
      "bBiFfpAbwAfAbEbBcjAbeAeBcAciAcCbAdBbwHiBgpAvAhheBbtlbBcAdkBbyPfmBbvAbwBeBcCegBcByAbtAbA",
      "efAcBfAjdB2bBbAblxjAbAexAbtCeBelAyBchAbwCjBnAdpCdBbAgoCbfBcgBbDcBcCjAkBdgChAcAbDbBbAdxC",
      "iBdAecCgAbDcAjdCgDcAejCiBbAefAbBgAdzAbBeAkbCjAjnFbBeAcAbAfmCiDeAdgAbdBckAprAoAecAhAcA",
      "ifEeBbAnmBmAbwBiBbAyyyCfjgCCeaBbkxnBgF"]
  | .me => ["bsqBikqAcigDbCbyoxC"]
  | .nd => [
      "bwJcioJfeJhqJpwJ9eoJdsJeoJcsJksJcsJctqJbmJloJeyJgkJgJhaJdiJfeJgJcaeoJbacJbmJhqJwJdiJpqJ",
      "bfmcJcckJdfyJgJbeqJeyJciJfoJksJneJeoJokJdyJgTcyJqgJdyJzmJdiJjmJcsJqgJyygJdmcJdiJfeJuoJ",
      "bkdyJecqBXdncJqgJtiJjnJbgvJhbaJ"]
  | .nl => ["iruCdytBIcDfmsAzIoCbsylJbifgCArsAiAfeEmesEG"]
  | .no => [
      "gwBfAcCdmrFomFeqCfdGijGrIqrJbplTbrvJsmAcmvAdFgJhqPbpAbbyCHdaVygBDcbhAbtcDfiJbeHbObgJbnO",
      "bsmiFbhqnBScnDrBndBAbkDbzgHzGbnIcxEwFgeBcPcBTcmIcaBbeCcxEeaHyHbpGmsFnoBEgcJbqDeiGfeTopT",
      "bzxBqoIbhnSbgtUbcpqGbesWblyfTmTeeYibuIbjtCGbCbDcyBSbOblaM"]
  | .pc => ["drAmbvBtAdgaoByCjfA"]
  | .pd => ["btAcauAbzAfkjAbnpAdbdFfhxAcAbfBeAbcAreAtAehAczwaBblAkAgnAfloAmgA"]
  | .ps => [
      "boAbyAbfAfpeAbAcuoAdpmAdAbmAcdApAykAbAbeAbpuA6bAdcAbgA4bApoA10bAcmAbAbhAbovA3bAzAsA3bA",
      "qmA4bAdA3bAcAczrtAihAbdA7bAdArA2bAgoAbyAbfAdAcA"]
  | .pe => [
      "bpAbzAbfAfpdAbAcuoAdrdAcdApAykAbAbeAbpuA6bAdcAbgA4bApoA10bAcmAbAbhAbovA3bAbsA3bAqmA4bA",
      "dA3bAcBczrqAijAbdA7bAdArA2bAgoAbzAbfA2cA"]
  | .pi => ["gpAlxkAcBcAzAffsAbAeAcApAdA"]
  | .pf => ["hfAlwvAdAbcAffsAbAeAcApAdA"]
  | .po => [
      "bhCbCcAbAbBkBdBbbAcqAfAoBhAbbaAiAryFbpAccA2cAbsBuBbBnAbCcwDdyAbrNizCccObfAkbBkAfkAeqA",
      "erApaAmAodAdmAkBgmObAeiAcwEeBehFgpAxoIbdtAeuCctBgbCbCblFbDmbBiiBeyGbFgeBkGbcCeuDchEckB",
      "cmHlAbgcBiHiIcDcCdKbAbJeucDbBeiAfnBeCcAcIbBbAcBkEbJcDbAbMcCqmCcfAhhAbrygBkjCdvAkAelFoqD",
      "diBboCbAbxBbvAdtMqBeuDewBqBjpAbfcuGcAwAuBcDdCbDhCgAbBftCbCcAbAbBkBdBbbAbkAcBpuCzsAbwA",
      "pyAbcpAhrAbfAkmIbmAeiGcoGdlDbkqEbsDhhGefBbDewDbwBdbDeAnAbCdkFedAlmBbBekEkBbAeaAjqWebC",
      "bcMcyAfaCjsAkeCfzAdoHdfCbEdpJihAdrEbqByvBcwMgtAbrsEejcBwdvBfdAcnEiAvgCljDmpAbdboAlilE",
      "eitAbheB"]
  | .sm => [
      "brAqCcjAbAbtAeAblAbfAbdmAuhCjyhAnAbnCnCfjAbnEgAcqEfBeA2cAhAbfBcAbAbfKHbgBdmAbeYboFsbAjA",
      "ccHehAmyEcBEkPjwFAwCKeBFcJXbwUcFdasqAbfsAbCgiAqCcjAbAfbAgDfefBcyezAzAbfAzAbfAzAbfAzAbfA",
      "zAiueB"]
  | .sc => ["bkAevDbwjAetA2teBhAjlAkdAwjAdqpAdiiBGbzhvAbgmlAeeAfyAilBdBmcsDcvxeAdrkA"]
  | .sk => [
      "dqAbActAgAeAdAubDmNfGbAbQenAoBbxiAiumAbClC2nCnBghoBbsvrWjBdzBbloAoBbekkQbihAbAggAdoljE"]
  | .so => [
      "gkAcAeAbAblpAkgBexBhyAkAtBjnAtvAojAfaFbAfcAhzAbpApbCpAbCcFuA2bAfdHbFbBfDhpBbcyJbbvAbbuA",
      "gbBHnpJjIcchBbDbBkAbBgF3bAeAlBoAbBbAcgBjEcD2bBbGbBEcBbAbBEkiHeTcGcDCbBDzBNgCTwKddCZwHA",
      "bIbCBiEGbJNbsBRcmJVtsBVvBgBMcBFbEAivFntBbuZbDKmIFbaPeAnBmAvBgBmyBeJbgBLjAqBElBDiApBFkBM",
      "pMHjtoCLbguiCCbhhDkBbAwbCbfjaPexAbtCsqAdAeBnBmbIcfQcCbMdAbvBScluBwtAessAdgnHeQbcniDfA",
      "beuwAfvnJFqQTgaELciJLkBMcCHfCwBhBDeCIvCNdAheDIbtxTRcdDbyHbNbBcouAehwAezAbbtBReDVmOcObO",
      "bBKxGEceBCnBReIhBoFfyJQfBBZeQdMdEOeDQgLeApLeCDiJgBNiBDcLeBckNBmNcMdJfCDhOcKgIhFQbDN"]
  | .zs => ["bgAexAihjAdpnKbkAbvAfxwA"]
  | .zl => ["meqA"]
  | .zp => ["merA"]
  | .cc => ["aBFdrBG"]
  | .cf => ["grAcakFwAhkAbxAouBdcAftjAdaqEbaEbxEbJdghjAjpCgizApAnkkPbzquDhwxHbtkzmAbeDR"]
  | .cs => ["dduuDAT"]
  | .co => ["dgvoJMDcahxoDSYNcDSYN"]
  | .cn => [
      "bieBgDhAbAuAphAbmBbyBdAcdHbbDgKkkAciBdxNchBbxBpAbcBbAlEbfAcEjdAiBcBwAhAbCeBjBcBeHbDcAfB",
      "zBdAgDcBwAhA2cAcBbAfDcBdCbGeAbGrJdAjAdAwAhAcAfBkAdAdBbOeBmGhAdAiBcBwAhAcAfBjBcBdGdDcAfB",
      "sJcAgCdAeCcAbA2cCdCmDfCdAeBbFbNvEnAdAxAqBjAdAeGcAdBbBeBkGwAdAxAkAfBjAdAeGcFcAeBkAdLnAdA",
      "bzAdAgDqBbaAdAsCyAjAbBhCbDgAbAiFkBdLcgDbdBKcAbAfAyAbAxBfAbAhAkBeBFcuAbkDbnAbkApAnBKhqA",
      "bEbBonAeBhAbAeBbpAeBbhAeBhAbAeBpAcfAeBcpBbgCbaFdiBgBztCdlGwIyIuLnAdAcLdqB2kFbaFdlGbrE",
      "csJbfA2mDbCbqBfKbsDbaFlCckBcnAbdBlFkFoBbfBWczAgkHciCpCckEbrBlHbrEuoBgBbmBgBiA3bAbfBcbA",
      "pAoBgAtBdAjAdxAmBbbAnC2bhOfkDzqVlUcrsBbgAnlEbtAbEbBceGcNyI8hAewBHbaAdlLigZdcAdiBdzEbrA",
      "dqAdiIbwAbrirCcdInkThcHhyBcAbAiUchCkFceHcsHmFemKbeCdaAlDbhAcdIoBkBdzXbcJ2gBgI2hAciDewB",
      "kFqnsLxDbxDnbaBecBLhLfEbaAfAbA2cAevPrdBccGbBFbqFbzAtAeDfAffBbAhiC3gBdChAhJfBmAbaAtAcApB",
      "oBHetEdDbtCdkAnCbBUbuEZbdCbxObcDbkIbeEbrEbeAblDoBPgcBkF2bkDboHcaKmApAhAcAlApAhAcCcaLlzI",
      "wJiXgAbqAjCQgBbAbsAcCbBxAcuHjBVtAcEbhCbbEbCLceDuBbyAcEiAdAbdBdDkGjGcmBFbnDmIccCbdBbbE",
      "baGeLhDBcvCCbzMbzGbuHkFbmCbdHcHZbfAbqAdBcPdCCbsHbqVbaBLbcTxIdaDbkIcqJbBzGkFcbAsHbnIdsA",
      "uKsAbvCJhAbAeApAlFchEkFeAiBcBwAhAcAfAkBcBdBbFbEhBhCfKkAbBbAbmAkAbBbAeAkAcHcBCdoAfBDcuH",
      "kGJccBbmBHcrKkFnScgFkFuBBbbBpDxHCciDVdfLiBbBiAcAbeAcBmIkCRiBbuBlBAcuHdfMcvGkGZbiNkFjA",
      "btAoJbdCbgBwAoCUhAcAbsCbAcAjHkFgAcAblAcAgGkLXzGrAbpCbdDGbObyMbjnDXehAfKhoDXJdvMbqsJfxrE",
      "wlKDCcgCORvxGbfAkDddAkFbeBgJcsJkAhAvEtQPcgHPdnDWcxDcfGrCLfKcNjcaHbvqBOkNFQeAhAcAlfObBC",
      "dBbNeHpgDKTedEnCjGkBiFVFjqFquCXbuBxIemCHjmJbnBhmUcsER2uLdjIzFEdhActAcBbBcBeAmAbAhAcnAeB",
      "iAhAbcAeAfAbChAncBlgBbbaOfApBQLbfFgIEhArBhAcAfEckBGbEHbtCoBkDcMHbfQcgEbRVbqIFbrDbSLhAeA",
      "cApAhpBqBOcyDkDcBEEcqCXcjHLeAbbAcAbBbAkAeAbAbFbD3bAdAcAbB5bAcAbBeAhA2eAbAkArEdAfArBZcKJ",
      "bsDdwLpB2pAblJgsCDbdMbsDjGcNgFXblwDrCnCepDdrFmDbOmDceHkFboHbeBmDcCJncLoBnCkEceGpBlFjG",
      "frAdyBNPclfcBFgduFioBinqNlblOxyDQVuwCFXhhzEgfgBOMXKbBDdsEXjgDSFN2dsyoB"]

/-- The characters of a category. -/
def set (k : Category) : CharSet := RangeText.decode k.table

/-- The characters of several categories. -/
def sets (ks : List Category) : CharSet := CharSet.unions (ks.map set)

end Category

end AccessControl.Unicode
