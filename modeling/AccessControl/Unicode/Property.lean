import AccessControl.Unicode.Category
/-!
# Properties that a character has or has not

A property is given by a table, or derived from categories and other properties as the standard
derives it.  `Property.named?` knows the properties by name.
-/

namespace AccessControl.Unicode

/-- How a set of characters is given. -/
inductive Property where
  | table (lines : List String)
  | categories (ks : List Category)
  | union (a b : Property)
  | diff (a b : Property)
  | compl (a : Property)
  deriving Repr, DecidableEq

namespace Property

/-- The characters with a property. -/
def set : Property → CharSet
  | .table lines => RangeText.decode lines
  | .categories ks => Category.sets ks
  | .union a b => a.set.union b.set
  | .diff a b => a.set.diff b.set
  | .compl a => a.set.compl

/-! ## Properties with a table -/

def asciiHexDigit : Property :=
  .table ["bwJhFbaF"]

def bidiControl : Property :=
  .table ["cieAjvlBbaEcdD"]

def bidiMirrored : Property :=
  .table [
    "boBsAbAbcAbAbdAbAbtApAfmsDcunBdqqBkBccBoBgvAhkDdFdAdBdDbD2bAeIfAbRfDjBbAbHbBFcDfAjBcSfBjE",
    "cBeXcPiDuBhBbptNcwAcDbBbCfDfCdNpnVcFbNiAhFdAeEbBcEeAbCcBkFcBmSbDcAbAcAbDfBgCyBlBeDbBcBeBQ",
    "cHbBNfAbAdEfCeAdEbAjwAtvDdBbBoBcJbrHqlJcHdacrFfBggBsAbAbcAbAbdAbA2bBddpnA4cfA"]

def changesWhenCasefolded : Property :=
  .table [
    "cnZdmAkWbHbgA27bAcA7bAbB22bAbB3bAbBbAbBbCcDbBbCdBbB2bAbBbAcAbBbCbAbBdAhB2bB8bAcA8bAcBbAbC",
    "29bAhBbBcAbD4bAjmAbqAbAdAiAgAbCbAbBbQbIwAmCdB12bAbBcBbAbBcBYbwA16bAjA26bAbB6bAcA47bAcBL",
    "bwAefgBLbAfAbfeFdfuJgBQcCmiA74bAfBcA48bAjHiFkHiHiFlA3bAiHqBVcCcFfCcFlDmEfCcFllAdBgAbtPtA",
    "bfmZcsuBVbwAbCcA2bAbDbAcAiC49bAiAbAeAbtyjA22bAtA13bAffA6bAdA30bAkAbAbB4bAeAbAcAbAdA9bA2bE",
    "7bAbDbAbBdAfA3bAyAbigDBbeaiGmEbntZbuzBNfgBJgaKbObGbBcqcBYgbVegoBFbgjwBFbulkBH"]

def changesWhenLowercased : Property :=
  .table [
    "cnZdxWbGbhA27bAcA7bAcA22bAbB2bAdBbAbBbCcDbBbCdBbB2bAbBbAcAbBbCbAbBdAhB2bB8bAcA8bAcBbAbC",
    "29bAhBbBcAbD4bAldAbAdAiAgAbCbAbBbQbIbjAiA11bAfAcAbBcBYbwA16bAjA26bAbB6bAcA47bAcBLehdBLbA",
    "fAbbuDHdglAgBQcCmiA74bAjA48bAjHiFkHiHiFlA3bAiHyH2iHiElElDmElEllAdBgAbtPtAbfmZcsuBVbwAbCcA",
    "2bAbDbAcAiC49bAiAbAeAbtyjA22bAtA13bAffA6bAdA30bAkAbAbB4bAeAbAcAbAdA9bA2bE7bAbDbAbBdAfA3bA",
    "yAbhahZbuzBNfgBJgaKbObGbBcqcBYgbVegoBFbgjwBFbulkBH"]

def changesWhenTitlecased : Property :=
  .table [
    "dtZcgAbpXbH28bAcA6bAbB23bAcAbAbCcAbAcAdAfAcAdC2cA2bAcAeAcAdAbAcAdAbAeA2bB8bAbB8bAbC2bAdA",
    "19bAdA8bAiAcBbAeA3bAbFbBbAbBdBbDbEcAbBcAhAcAbBdFfAkBgkAbrAbAdAdCsAbbBIbBdC11bAbEbA2cAcaBV",
    "17bAjA26bAcA5bAbB48bAbxBMfmeFdfuIbAjeAdAqAekA73bAbGfA46bAbIiFkHiHiFkHiHiNcH2iHiEbBgAdCbB",
    "iDcBiHkCbBneAbhPeAbglZctqBVbAdB3bAgAcAkA49bAiAbAeAmBLbAfAbtwdA22bAtA13bAffA6bAdA30bAkAbA",
    "cA4bA2eAbBcA9bAlA7bAeAbAcAdAfA2bAbaAbhcAbcDBbeaiGmEbozZbvhBNfgBJfzKbObGbBcrbBYevVegoBF",
    "bgjwBFbulmBH"]

def changesWhenUppercased : Property :=
  .table [
    "dtZcgAbpXbH28bAcA6bAbB23bAcAbAbCcAbAcAdAfAcAdC2cA2bAcAeAcAdAbAcAdAbAfB2bB7bAbB8bA2bBbAdA",
    "19bAdA8bAiAcBbAeA3bAbFbBbAbBdBbDbEcAbBcAhAcAbBdFfAkBgkAbrAbAdAdCsAbbBIbBdC11bAbEbA2cAcaBV",
    "17bAjA26bAcA5bAbB48bAbxBMehcBQcCbdgFdfuIbAjeAdAqAekA73bAbGfA46bAbIiFkHiHiFkHiHiNcCAbBeAbA",
    "dCbBeAdDcBiHkCbBeAmzAbhPeAbglZctqBVbAdB3bAgAcAkA49bAiAbAeAmBLbAfAbtwdA22bAtA13bAffA6bAdA",
    "30bAkAbAcA4bA2eAbBcA9bAlA7bAeAbAcAdAfA2bAbaAbhcAbcDBbeaiGmEbozZbvhBNfgBJfzKbObGbBcrbBYevV",
    "egoBFbgjwBFbulmBH"]

def dash : Property :=
  .table ["btAcauAbzAfkjAbnpAdbdFcjAbnApApaAeoiAcAbfBeAbcAreAtAehAczwaBblAkAgnAfloAmgA"]

def defaultIgnorableCodePoint : Property :=
  .table ["grAzxAbboAegwBckhBdhEdapEbaEbxPgkyAczmpPjfAgeAdbIctlnDhwxHbtkzlGBN"]

def deprecated : Property :=
  .table ["mrAbyvAdktAbAdcjBdijFbavBbzrykA"]

def diacritic : Property :=
  .table [
    "dqAbActAgAeAcBtjGCbHfFrBeAjBjtEibAcdQbBAbAbBbAfeHeBfeBeBdCcpBAdnKcgKbiBewHbpJqBBcjAqAdD",
    "bcAcwAqAegAqAegAqAbvCciAqAhAepAegAqAegAqAefBqAeuAehAmFbAedAnEcxBbbA2bAeBcoCbBckAeiAbBboB",
    "eEzGbAkBbbdCbkmBbeAfsKjAnjClgAuHcAbwOcKeaApAbmIccBcgAlBcoBcmFdeYeAgAcCbyCKdlLblKrdAbClC",
    "2nCnBexkCmfAtmFebDdrAbsmkAmBbAbcBdeBoBHdyCefBmAblAfvAbbRcfDbkAdrAmAbkAftCcnDbzAdwEjCeyB",
    "bdzsAbdpPkkAbAbvAbtBcpAbdkAbtnFbBPbIynCeAgjBvzFbmAbaEpjCcsKbxDhkAbpAcuBeqBckAcyAjCeaBgwB",
    "dcBqAyGdEdlCbBnBdrAdAetBjrBewAeoBelAkjBjyBeAgaAdfAsAddAqfAjyAbBddAqjBxAhyaOqzpAdsaEchGvsB",
    "vaQdcBygcDbGbBlthBTcWuyCdFiHcGbeDfmwCJhmGolAcjDbdmBbciGefCbC"]

def emoji : Property :=
  .table [
    "bjAgAfJehAeAlyrAmAiiAwAdmFpBodBmAgkAzKeChrAixBkAjAcgDbEjAcAcBcAeAcAbBcAdAdBiCfAbAfLlBcAbB",
    "bAsAcBsFbAbBdBfAcBeBlBfBcAfBbAbBuBfFbDcAeAcAcFbAcA2bAgAdAgAkBpAcAeAbAeCbAlBbwCjA2oAoiBrvC",
    "tBbzAeAbvuAmAxdAbAgmrqAhuAgeBmBoAcJcxZbBxAuAcIvBgsBHcEHcBbCcDEcCbKCbCKlFbXhBcHmAcDcAeBnB",
    "cAiBjAfCmCiCcAbAeAgAdAgDHbwCRfHcCeJdAbBdAcJitLeAkxBUbJbHCeiMdJfCDhOcKgI"]

def emojiComponent : Property :=
  .table ["bjAgAfJmbjAifAdftrAdoiwZtnEceaDbsvuqDR"]

def emojiModifier : Property :=
  .table ["hhixE"]

def emojiModifierBase : Property :=
  .table [
    "olhAilAqDgsjvAciCcAcCenBcKvSdAeCbChAbAyAhtBeAvAeBgsCdEdfAqCjAlAwdAcAiHgAjJcCceAcjBbBbArC",
    "bMivCbqI"]

def emojiPresentation : Property :=
  .table [
    "nhqBhxDdAcAubBvBbyLbrAtAnAiBrBfBiAfAvAhBbAeAcAhAeBbcAbjAbAeCbAcjCyAoAbhbBbzAeAgpleAhuAhiA",
    "cJcxZbAyAuAcEbCvBgsBGmIbCRbVmBQeEmQdAdCSbAbHEcCKnDbXsAbaBnAdiDGbwCRgAdCcCeDlBhIitLeAkxBU",
    "bJbHCeiMdJfCDhOcKgI"]

def extendedPictographic : Property :=
  .table [
    "gnAeAlyrAmAiiAwAdmFpBodBmAdrAcsAzKeChrAixBkAjAcgDbFbLbEJkENcK2bAgAdAgAkBpAcAeAbAeCbAlEbtC",
    "jA2oAoiBrvCtBbzAeAbvuAmAxdAbAgmrmJVnCbfAciFmBoAcJsCEbbOkAuAcIbDjQRfMFiKFbwEXemLdhBQmDceH",
    "kFboHbeDDmBUbJbQYjwBNH"]

def extender : Property :=
  .table [
    "hbAuqBbhuAqzAygAfhAdlAbcyAexAdnfAceAxnApiAcqAhkjAbrEdzBdpCbqbuAcgsAblaAwAfhAeeAvBbfzvA",
    "dbkBcfbAbbAeAbvbAlhAemBteCbvjAbeofBbtkBbAbqyaBbufAbguC"]

def graphemeLink : Property :=
  .table [
    "dnpA7exAefBqAeuAehAexAhtAgyBcplBbeAgbAzdAitAdxBcsBgqtAbukkAblAfvAfmAeeAlxAjmAbjsrAchiAbpA",
    "oAcfAerBfjAemAgyAduAeyCejAexAjsAexAeoAemAkjAjzBgfAdfAsAddAqfAkaBddAqjByzcA"]

def hexDigit : Property :=
  .table ["bwJhFbaFdsllJhFbaF"]

def hyphen : Property :=
  .table ["btAexAbvwAgzzAdbdBfibAbclAczulAgnAdjA"]

def idsBinaryOperator : Property :=
  .table ["seaBcJtdA"]

def idsTrinaryOperator : Property :=
  .table ["secB"]

def idsUnaryOperator : Property :=
  .table ["seoB"]

def idCompatMathContinue : Property :=
  .table ["gwBfAmagAdKbOohAeAwAgjjeAzAbfAzAbfAzAbfAzAbfAzA"]

def idCompatMathStart : Property :=
  .table ["mwwAeAwAgjjeAzAbfAzAbfAzAbfAzAbfAzA"]

def ideographic : Property :=
  .table [
    "sewBzIoCbldJTNcmBFBJbhsiOBcEBbsikAbbJBZiBVPbpJnulPFbdeiCLFBbgGDTgINcINPoLBKpXXdqwUVcfyHHY",
    "fGFF"]

def joinControl : Property :=
  .table ["mdoB"]

def logicalOrderException : Property :=
  .table ["fkiEetEedsCcAccxmBcAbB"]

def modifierCombiningMark : Property :=
  .table ["ckiBcAfbAgAdBsnBbCdAbfA"]

def noncharacterCodePoint : Property :=
  .table ["dsdcBFugB16dsyoB"]

def otherAlphabetic : Property :=
  .table [
    "bgfAbdMweNbA2bBbAcuKbwMbGqAdxGeDcBeAbjAbePdyKdxBdIbCbDecAciLdGgTccBcObBfCkBbdCcgG2cBkAkB",
    "bdCcgEeBcBeAbeBdAlCcgHbCbBvBwCeCcgG2cBjBkBbeAchEdCbCkAboEcfG2bCiBlBbdCcgG2bCiBlBpAmDcgG",
    "2bCkAkBbdCcxFbAbHsBcjAcGsAdvAcFbBqAghSjKbBJegLbAcDxDeCbCcGdDnLbAkDcloB3beBcoShgBbiAeoLeI",
    "ioEcfJcTcwBlCbxEbwOciCbeIcBcfKbySpwBHconBZdkgBFbtqaHbiBnqAiAxEdkBbyPbAcfAbmEbcLbtDbwLblA",
    "cpNmAiBbtCbyAbCcBfAbsEfAjdHbdzvAdedEcmgCbBfDbeiDcnAmjBdbAjzCcbNbtBlCbtIjAcjCbkLsBcfCbwMoB",
    "doIcAgAcAgbJxDcgG2cBkAkBdgIbAcAbDbBdzMbCecRjdGcGbdBdeObAecKdzNjxMjnFbBcBdAbAfmGcFeAbcJbqE",
    "bDsKbuNprHbGdfVbNesFdAbBbCbAdAcoEbBbDnkDjBbAbwGdCyynQfjcAbCChDdpBbdayAnkjGbQcGbBbEdwAdhvA",
    "czwZ2gZ"]

def otherDefaultIgnorableCodePoint : Property :=
  .table ["bgpAfilBckhBdhnAgliAdacpAdbIbwmihAbBDdsEXjgFIL"]

def otherGraphemeExtend : Property :=
  .table [
    "dryAyAnuAyAdyAyAiyAbAeBbBjBdzAyAepApAdmrAbeAbnkAfAbAfBdxActBboiAgcvBbtwtAeeAbgnlBgwmAemA",
    "keAoAjAdsAjAcAbCfAiqAmAjhAkcAyjAmAchfAbeokBbkxnBgFbtlazDR"]

def otherIdContinue : Property :=
  .table ["hbAbbrAgajIclcAcizBgkrAdaejA"]

def otherIdStart : Property :=
  .table ["jhlBdgjAvAfvwB"]

def otherLowercase : Property :=
  .table [
    "goApAthIhBbeEdsAcaAfczAepzCKnAbiBKbanAnAqMidPbgqZcwoBbugkBicAezCdBbhiDjAbiwsAcCbBPbI",
    "ddzhCJ"]

def otherMath : Property :=
  .table [
    "dqAbhxCcAbaBcBkqyAbbClAbgDyBoBcnMeAdBeEsAeAcJbAdEgAdBcBbCbFdDfEcxEcD2bBbAbEcBeBeRcBbAbGbA",
    "gBleDgmBbAyArArdBmIfEfBcBdEoAbAcFyBcfAbAbdDjBneBbfJpnVclDbgBdclfAbAeAidAbAdcovDGbCSbBcAcB",
    "cDbLbAbGbCMbDcHbGbBBbDbEbAdGbNBcYbYbBEbYbBEbYbBEbYbBEbYbHcBXiiqDbBAbBbAcAbJbD2bAgAeA2bAbC",
    "bBbAcA4bAbBbAcDbG2bDbAbJbQfCbEbQ"]

def otherUppercase : Property :=
  .table ["mqqPbggZgsiyZ2gZ"]

def patternSyntax : Property :=
  .table ["bhOkGbaDbAbaDbiGbAbBbAbB2eAdAxAbfAlueXiOcSbJltBBRgeYFbeBRNtsEXovCeYpAczqzBkbB"]

def patternWhiteSpace : Property :=
  .table ["jEsAdwAlymByB"]

def prependedConcatenationMark : Property :=
  .table ["chcFihAbxAouBdcAdvxyApA"]

def quotationMark : Property :=
  .table ["biAeAfbApAlwuHzBfidArpDnCdabpDhhAeAdmB"]

def radical : Property :=
  .table ["rpwZbDKmIF"]

def regionalIndicator : Property :=
  .table ["hgokZ"]

def sentenceTerminal : Property :=
  .table [
    "bhAmAqAcabAfrCgyAbrCjmAcjAbAdBlhBcpwBbekAeBbdtAhqBgbBbtAfAmcBnqDggBkBcBbdChfBcnBbjwAxBjC",
    "euxCluAnAwBqnAbshwAkkBitAdAosBdiBdrAfwBfrCfoBjpAbfcwAcBchAdBgnAmAqAcnAedwBbxdEbsDhhBenD",
    "exCezBgAqBdkBbBeeAlmBenBojBfOebBjpCtxAbAjrBdjBqeBbaqBcwBbcmbBfdAcnBlAvhBlkAbdogAlimA"]

def softDotted : Property :=
  .table ["ebBhoAkvAbeAcaAuAmiAduAbAjmnAbzAnAdAfcAgbAqfAigBeggAgelhB12byBdfyAltBbaA"]

def terminalPunctuation : Property :=
  .table [
    "bhAkAbAlBdAbfyAiAttAcfAcuAoAbCgyAbrKbAjbBccFbHbfAkbBbwuBgqAeFlzBbejHbdtAeuCctBgbCdAbnDcB",
    "mcBnqDggBkBbCbdChfEckBbjwAxBjCeuxCluAnAeAkAbBdBqmBbshvBkjCitEosBdiBdrAfvCfrCexAqBjpAbfcwA",
    "cBcfCbDgnAkAbAlBdAcnAcAbpqAbwAbsoAhrAlyBfwFcqFdlDbkqEbsDhhGeiDexCezBgAqBdkEeeAlmBenCmBnuD",
    "dOebBjpCtxAbAjrBdjBeBpyCbtAyvBcwBbyxEbamzBfdAcnCkAvhBljBbdogAlilD"]

def unifiedIdeograph : Property :=
  .table ["tsaJTNcmBFBJbicsBbAbBkAbAbBcCdvecCLFBbgGDTgINcINPoLBKpXXgrqHHYfGFF"]

def variationSelector : Property :=
  .table ["jctCbAdjcaPbwnkyJF"]

def whiteSpace : Property :=
  .table ["jEsAdwAbaAihjAdpnKbdBfAbvAfxwA"]

/-- Letters that compatibility forms keep from starting a name. -/
def notXidStart : Property :=
  .table ["bigAeboAexAmvvBczefFpqBemA7bAlbB"]

/-- Letters that compatibility forms keep out of names. -/
def notXidContinue : Property :=
  .table ["bigArciBczefFpqBemA7bA"]

/-- Points and quotes that may stand inside a word. -/
def midWord : Property :=
  .table ["bnAgAlAeuAbbrAsdAfsAjxjBkAcAdgbbAckAcAgvAgAlA"]

/-! ## Derived properties -/

def lowercase : Property := .union (.categories [.ll]) otherLowercase

def uppercase : Property := .union (.categories [.lu]) otherUppercase

def cased : Property := .union (.categories [.lu, .ll, .lt]) (.union otherLowercase otherUppercase)

def alphabetic : Property :=
  .union (.categories (.nl :: Category.letters))
    (.union otherAlphabetic (.union otherLowercase otherUppercase))

def math : Property := .union (.categories [.sm]) otherMath

def graphemeExtend : Property := .union (.categories [.me, .mn]) otherGraphemeExtend

def graphemeBase : Property :=
  .compl (.union (.categories (.zl :: .zp :: Category.others)) graphemeExtend)

def idStart : Property :=
  .diff (.union (.categories (.nl :: Category.letters)) otherIdStart)
    (.union patternSyntax patternWhiteSpace)

def idContinue : Property :=
  .diff
    (.union (.categories ([.nl, .mn, .mc, .nd, .pc] ++ Category.letters))
      (.union otherIdStart otherIdContinue))
    (.union patternSyntax patternWhiteSpace)

def xidStart : Property := .diff idStart notXidStart

def xidContinue : Property := .diff idContinue notXidContinue

def caseIgnorable : Property := .union (.categories [.mn, .me, .cf, .lm, .sk]) midWord

def changesWhenCasemapped : Property :=
  .union changesWhenLowercased (.union changesWhenUppercased changesWhenTitlecased)

/-- Characters of words: letters, marks, decimal digits, connectors and the two join controls. -/
def word : Property :=
  .union alphabetic (.union (.categories ([.nd, .pc] ++ Category.marks)) joinControl)

/-- Characters that do not show on their own. -/
def hidden : Property :=
  .union (.categories (Category.separators ++ Category.others)) graphemeExtend

/-! ## Names -/

/-- The properties by their names, without case, blanks and hyphens. -/
def byName : List (List String × Property) :=
  [
    (["asciihexdigit", "ahex"], asciiHexDigit),
    (["alphabetic", "alpha"], alphabetic),
    (["bidicontrol", "bidic"], bidiControl),
    (["bidimirrored", "bidim"], bidiMirrored),
    (["caseignorable", "ci"], caseIgnorable),
    (["cased"], cased),
    (["changeswhencasefolded", "cwcf"], changesWhenCasefolded),
    (["changeswhencasemapped", "cwcm"], changesWhenCasemapped),
    (["changeswhenlowercased", "cwl"], changesWhenLowercased),
    (["changeswhentitlecased", "cwt"], changesWhenTitlecased),
    (["changeswhenuppercased", "cwu"], changesWhenUppercased),
    (["dash"], dash),
    (["defaultignorablecodepoint", "di"], defaultIgnorableCodePoint),
    (["deprecated", "dep"], deprecated),
    (["diacritic", "dia"], diacritic),
    (["emoji"], emoji),
    (["emojicomponent", "ecomp"], emojiComponent),
    (["emojimodifier", "emod"], emojiModifier),
    (["emojimodifierbase", "ebase"], emojiModifierBase),
    (["emojipresentation", "epres"], emojiPresentation),
    (["extendedpictographic", "extpict"], extendedPictographic),
    (["extender", "ext"], extender),
    (["graphemebase", "grbase"], graphemeBase),
    (["graphemeextend", "grext"], graphemeExtend),
    (["graphemelink", "grlink"], graphemeLink),
    (["hexdigit", "hex"], hexDigit),
    (["hyphen"], hyphen),
    (["idsbinaryoperator", "idsb"], idsBinaryOperator),
    (["idstrinaryoperator", "idst"], idsTrinaryOperator),
    (["idsunaryoperator", "idsu"], idsUnaryOperator),
    (["idcompatmathcontinue"], idCompatMathContinue),
    (["idcompatmathstart"], idCompatMathStart),
    (["idcontinue", "idc"], idContinue),
    (["idstart", "ids"], idStart),
    (["ideographic", "ideo"], ideographic),
    (["joincontrol", "joinc"], joinControl),
    (["logicalorderexception", "loe"], logicalOrderException),
    (["lowercase", "lower"], lowercase),
    (["math"], math),
    (["modifiercombiningmark", "mcm"], modifierCombiningMark),
    (["noncharactercodepoint", "nchar"], noncharacterCodePoint),
    (["otheralphabetic", "oalpha"], otherAlphabetic),
    (["otherdefaultignorablecodepoint", "odi"], otherDefaultIgnorableCodePoint),
    (["othergraphemeextend", "ogrext"], otherGraphemeExtend),
    (["otheridcontinue", "oidc"], otherIdContinue),
    (["otheridstart", "oids"], otherIdStart),
    (["otherlowercase", "olower"], otherLowercase),
    (["othermath", "omath"], otherMath),
    (["otheruppercase", "oupper"], otherUppercase),
    (["patternsyntax", "patsyn"], patternSyntax),
    (["patternwhitespace", "patws"], patternWhiteSpace),
    (["prependedconcatenationmark", "pcm"], prependedConcatenationMark),
    (["quotationmark", "qmark"], quotationMark),
    (["radical"], radical),
    (["regionalindicator", "ri"], regionalIndicator),
    (["sentenceterminal", "sterm"], sentenceTerminal),
    (["softdotted", "sd"], softDotted),
    (["terminalpunctuation", "term"], terminalPunctuation),
    (["unifiedideograph", "uideo"], unifiedIdeograph),
    (["uppercase", "upper"], uppercase),
    (["variationselector", "vs"], variationSelector),
    (["whitespace", "space", "wspace"], whiteSpace),
    (["xidcontinue", "xidc"], xidContinue),
    (["xidstart", "xids"], xidStart)
  ]

/-- The property of a name. -/
def named? (name : String) : Option Property :=
  (byName.find? fun entry => entry.1.contains name).map (·.2)

end Property

/-! ## Characters -/

def decimalDigits : CharSet := Category.nd.set

def blanks : CharSet := Property.whiteSpace.set

def wordChars : CharSet := Property.word.set

def letters : CharSet := Property.alphabetic.set

def numbers : CharSet := Category.sets Category.numbers

def hiddenChars : CharSet := Property.hidden.set

/-- A letter, in the wide sense of alphabetic characters. -/
def isAlphabetic (c : Char) : Bool := letters.contains c

/-- A letter or a number of any kind. -/
def isAlphanumeric (c : Char) : Bool := letters.contains c || numbers.contains c

/-- A character that shows on its own. -/
def isVisible (c : Char) : Bool := c == ' ' || !hiddenChars.contains c

end AccessControl.Unicode
