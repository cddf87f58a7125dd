import AccessControl.Unicode.RangeText
/-!
# Ages

The versions of the standard in order, each with the characters it assigned.
-/

namespace AccessControl.Unicode

/-- The names of every version and the characters it assigned. -/
def versions : List (List String × List String) :=
  [
    (["v11", "1.1"], [
      "aTHeBDceDKhBUbJwCRbaBsBeAdAfGbAbTbBRbGdA3bAbRnLbCNbLbBOjCA2cBdBBcHcBcdBLcGbBMbAbmJbImBA",
      "fExAoAdAbZfSnNcCTcEbObBDcJtzCbCAcRcEdYqCbHcBcVbGbAdDcAbGcBcCjAeBbEcUhAcFeBcVbG3bBcAbEeB",
      "cClDbAhOmCbGbAbCbVbGbBbEcJ2bCcApAfJrCbHcBcVbGbBcDcHdBcCiBeBbCeKrBbFdCbDdBbAbBdBdCdHbCeE",
      "dCbDjApLoCbHbCbWbJbEeGbCbDhBjBeJsBbHbCbWbJbEeGbCbDhBhAbBeJsBbHbCbWbPeFcCbDjAiBeJfpCFeBC",
      "blBbAcBbAcAgDbGbC2bAcBbMbCcEbAbFcJcBriBLkBMeAeDLfCPfDDeokFYfDLgVcFcBLcFcH3bAbBEcCAbObN",
      "cFbScCbIbBUbWbjGdBArKblRbeCEbaBVnDMvJHoAbEQfdBKbbKvFIvFTkDBqTgDHfpDbDcBBbBIbAbDdAbGcG",
      "oBEdXbNddhCDhAbDFeFcDPgBNeDPbPdsBCdBJbcBBdBXpLeBUbEOeDUcBEjwbBEXXyjqJXTicGmEgYbEbA2bB",
      "bEDbhOAqCLcCBboLbkDmUeJbSbDeCbAbFEcAbDPcDPdF2cFcCdGbGoC"]),
    (["v20", "2.0"], ["ccvQbMuAdmxCTbBGhBAeFbAbUdGbAfqnAuhAcatwQNReifyB12dsyoBdsyoHLXH"]),
    (["v21", "2.1"], ["mjsAdgotA"]),
    (["v30", "3.0"], [
      "tiDbeHcRenEbxAkEdjItAemAdA3bAbeAmAcoAmAbqBcDdoBgaAhsCduBfApAbqEbNbBDdBAcbBWcfhBbRdXbIbA",
      "cGdAeFbAbHsCojAbrAxChAbCbOcAbwBHbEbBbGdDgZqgGbCKbAbDcGbAbDcBMbAbDcBEbAbDcGbAbDcGbGbWbBE",
      "bAbDcGbBMbSgBBbjDGmYFjBCdDCfnDOdJwObJgDJiBPcwbAyFdrCbyBdhBcuAdzIkjAerAbBDfiBrpHbhAdiB",
      "piJVcceZbDKmIFbaLciCdAnpXwmJTDbfegBSUdRcPbLbCbAbgscAbvvC"]),
    (["v31", "3.1"], [
      "bmyBdqqcBFbxwBEbDmBAgzBLcBLczdqJLkBMdGXvaDGbCSbBcAcBcDbLbAbDbBbCMbDcHbGbBBbDbEbAdGbMZ",
      "eLDeBXpdwCLESbetdUVbpcqtAbeDR"]),
    (["v32", "3.2"], [
      "uyAlqAtMeaBbcAfrBcfB2cBbxPnmBmjAdnhBchjMbGlWjTmMbCbBdixAgEeAhEnAckBbyGdeOgmLjiNeuAbeBZ",
      "kyTfvJdkHwBdmLcJioNdmBBePjwTRbznCdjBiBdqAjgP2ddObrdiBqAmAdAbgjaCGbjdAdPcbBbsAjbB"]),
    (["v40", "4.0"], [
      "uzAsCepBclQdcHfCfvEtwDjIcmCftBpAbtCbdCquAhcAcpAbAfgAdgCnAcpAchAezHhlBefnAsJkcBCdLeLeA",
      "dBPcEedBFbdoEDbcpBiwAzjBlqAkqBemHoBbraNcrnBbxAbrBdaDglDdvBbfAjtoCLcoqvAcvBqxLbZbSbBbOcN",
      "biESfCeBSdIweBDbAfeBbmDBcJbgwFcAbBRbBdAcAcyuiDInyAbtkdaJF"]),
    (["v41", "4.1"], [
      "vvKksEgdDjmBgoAbiCcpAsAcgFjhBDuhAdcAstAbvAbmnBljBbAkgA2clAbnA3bfApAbnAxBbfZcgcBPgZgJeB",
      "bgBBcBbgmDJzhBbGbxEbdDcbAdcApAyuKwaAdxBsKfPkkGbghFjcBUbBUbhECoBSkCBjAqWjG7bGbhXeBbjuP",
      "gsAbpitVctoWizBRbfeaEBbfqJbfaCWunBJeNcisDbBfHbCbBAeCeIiIcxpvCRbraB"]),
    (["v50", "5.0"], [
      "wgNlnCmzAbqFqDgkAtxCGouBbBbhiBnBfijCXeBSwlGbzBbcuDdpBcbAxbLbbmAkqDbgjGfDmeMhDbuljDfB",
      "laCDbkomZfAirgBHUfpDUnDcogiRbquB"]),
    (["v51", "5.1"], [
      "bhwDcBdjAhbAfkPisElEbgElqRtdBioAbjAhyAbdB2eeAbaBiBuHhhAgAbdBmFdGsxBdtAdCczAfAcAhCeFbaCL",
      "eBdbeAbbxBQdLcsCDdOdBYmtBBgzDdmFnsAfjAdqAcbDbyaAvJdDkeAbfDbffEeBOdEkuCbCeFnqBFyDcSbdkA",
      "ggTbppoHbzoLNuBFcRiBBfbEcECegEeyCQjLbmDFlAgeCCjNcJcDbfsuCbhpLcaBTfaBCdBWckdZfAcxsjA",
      "lrqBReDV"]),
    (["v52", "5.2"], [
      "byqBbccBTcOhlAczAgAbjBeyAcfpDhlDhgEcqEdeFtsAygIvoCRgyBbuAcrCKbBCcKgJgNvaBIkgAbauCfvCccA",
      "xiAbarBbdCeJbSbAeXdjAbnhEksAnBedGmhAbocLbplsHbxkBVqaDJmaJgkBBdwBCdCZbKeBeyBBeCOyEiqBTcJ",
      "qokWeBWnbbCfgcVbIheBmmBFeyCBdBCcBAfHeyCUupBEttCNlvqBPEctndKfBEcAlAbAcAdAdEiAhAzAbBcAkD",
      "cAehApBHoIcqljGDO"]),
    (["v60", "6.0"], [
      "bysBjoAckAsmBBcAilBtAgBbbEtmFqrAqAtAwbDcvBbioBdenBZiDtoAzoHbcAbfjKbccAtAbDbdAeBbcAbjAbA",
      "eCjBcaCyAoAoBcdkAoAbpoCbsenBlnBbBoJdcAbduF2cFjGbGbemtPhriCZeBDbheeVWbalbBymgOcNcObOdcA",
      "bKbAbB2bCfHbGbJgIbAcBbJeBbJcxZbBbvIvBgsBGpFbCRdTmBKbEvQpCKbAbGZbDdCJsXfrEbPbC3bAbCbFcD",
      "bAcDbLeKbwCRcgELcuqmIN"]),
    (["v61", "6.1"], [
      "cctAemAzrAbKcdBAtdAbmrBstAfAbvCebbCmFjwHbrDecqAbAbyqBbzAfAceBhuJbraeAcnnHbjAjiBwAczB",
      "bcoWbdzzBfuuCDgBcroYhJgCAbNciCUhJbtuCDiJbhkoCQlBUqQbvwiDbBAbBbAcAbJbD2bAgAeA2bAbCbBbAcA",
      "4bAbBbAcDbG2bDbAbJbQfCbEbQcaByiBblsDhgAqAdA3bAdAgBeAbBeA"]),
    (["v62", "6.2"], ["mkgA"]),
    (["v63", "6.3"], ["cieAjyvD"]),
    (["v70", "7.0"], [
      "bilAqiHdpBeoAzrAlFcyAeqAhAypAbzAcyAexAiuJdkrHvcBplOvxBjdObbhCbfqGbdtAbqiCkZcBFcBHdLbH",
      "xuGbtovFjmLlCcBcrAsuBEevDguBVeBbfivGbhdBtAmhBBbjAbwBQozBNiBZlAfoLYjVkHjoCKiIrwBFbgBMeL",
      "fhRhDmGbvjAiaBMdiAmAgTlRbBQekCGfJhCbHcBcVbGbBbEcIcBcCjAfGcGdEkhCTiJgkCBcRccCQlJwkDEmA",
      "rgCEdfiBPhuLfAbalfBEbJeBdsBDcFkCRkJbGbUfSbemaECfMdIhJcHqkyHOcPczwAbgVvBumLjAcsAwLblAfD",
      "fLrGctAbAhaAeBclBeGbdRbBObDHcsBnBVcsJqMdDfkDGbrLeCDiJgBNiBD"]),
    (["v80", "8.0"], [
      "dhrBbuAunAnoAkaAcmvAcFevoAhvBdyeDbrwvIcouAjgAbiFmmBxmDmDBbffqBebgSbBfEhgBcPcBTyqBYnBYhF",
      "bvdDoEgeGbAbDbObKdiAdbAyjTleZdOePerpAiwHNlqqWKcawlKchzZBpEbOjhdCdaBdbEbkHjvAcxEjjBfjA",
      "wdIdzEchAcuclINP"]),
    (["v90", "9.0"], [
      "dhuHwObjpAhyAeCbGxCfrzIogAchbDdxcBbtzlAksAbhqdBbevBJeBJfaoArhDL2bAtuMccxIbBSbNkBCdBFcV",
      "bNbfmvAbfJBOtBDAbgflGbQcGbBbEdizCWfJeBddbRfmAbfyAbpAloBbhCvaFbHiAcLbLeObmM"]),
    (["v100", "10.0"], [
      "demKplBjsFtsAcgBfywAjuDbbhAbfzAczaAycEbcmAbpxnUblpiCiqqCTiBZcWbExhGbBbBRdAbBbIiJbfgpA",
      "yhkKYddPFyaeFbrpBbiBtzLtAiHbBzAsMbmFceWdcpdLBK"]),
    (["v110", "11.0"], [
      "cayAbnAdyAufCidAlmAepAphAexAenrAbohBQcCfrmCwYeOwpEbciAbpyhEcyhAiBmmBbkvcBsAbatBNiJrmBN",
      "iBPohAeoCtgAleAbaxAivCHxlAbbeFbBbBKbBbFhJlyYbeapDMjpiEbcjuTewGjlwCPbscAcezAilDoiCbcEcD",
      "dAbDyKnJhBbkYdsN"]),
    (["v120", "12.0"], [
      "estAugA2cAbFeAhAhBcAnAfkhAfpuAcbAwtAbtzmFcEbjrBbmbgWbrkAxcAbcpHcBTcKgdBbzmBXnAhquIwjkF",
      "eAbvIdmBjcwFprcCrDsaqBSdNcJeBoeCFfAcjzAbknCIbpeAcbgAbkAivLldCbvAbxAjAbpFdBkFdHcCbwDFbcD",
      "eCfCnF"]),
    (["v121", "12.1"], ["tidA"]),
    (["v130", "13.0"], [
      "dicJzdAqoAeuAfajBgjuAbauCbhoEkpiJbfdgMcysDbqBcbAbfvDbgqqAewxBPbCcBjuBBopAfeBzaAfBbtmGcA",
      "cHbBbBDbBcLjJckkAbejrAlBkfxSObqIblwuCdpCcjAbyuBbjBqtBdmAdxAeBbqBgCbdAgmAoDpShGjCnGbpFQ",
      "bCCblJcmsjGbhtqHHY"]),
    (["v140", "14.0"], [
      "cifAwwBEbBgHvAsKbhpAbgAexAdwhAhAjAjfAbanNevAbwBylAbbhAeioAbvAtfKbratCcyiBoBbAbEyCbftdA",
      "orPexAbuBcvgKbObGbBbKbObGbBrjFbBPbIcxxZiwFcyAcgsAfeGbhpPhwyDUwdxDAbJbaewDbGbBlcDlibBTcW",
      "jELvdBeyvBEbhxBEbzdGbDbBbOfqkCkmApcAdeAgsBbsDkDiCrCgHiGcncpBgevD"]),
    (["v150", "15.0"], [
      "exnAsgAdtakCbfzCdicJbnaQbBOdBBhxdAjBCbvhkAbiAmraTerhFkbCJbhAbpwBPgucAfvCeEdlAzrCpBbkClC",
      "bAoBkBmAoBcthoAbiwsGFF"]),
    (["v151", "15.1"], ["semDtbAkeiqXX"]),
    (["v160", "16.0"], [
      "dgpAhcgBbvAkfBcwyCffeBbsqvCmCbjolBZctwBLdBCiBluCcdAbslJbAcAbBLbJbAcAbDbJbBiBbcvTbvwBHoJ",
      "bhgAhyzFXQkztCFeokCFlyjAxwiJPgQTitoBQeAhccJeBrnAfAbuAhAvAcAjAirBK"])
  ]

/-- The characters assigned up to a version, which may be named with or without a letter. -/
def assignedBy? (version : String) : Option CharSet :=
  match versions.findIdx? fun v => v.1.contains version with
  | some i => some (CharSet.unions ((versions.take (i + 1)).map fun v => RangeText.decode v.2))
  | none => none

end AccessControl.Unicode
