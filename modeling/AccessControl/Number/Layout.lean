import AccessControl.Number.Shortest
/-!
# Writing a binary64 number

A number is written with the fewest digits that read back.  A `Layout` says which numbers are
written with an exponent, whether a number without fraction keeps one zero after its point, and the
words for what is not a number.

    plain      1   0.5   100000000000000000000   0.0000001   NaN   inf
    json       1.0   0.5   1e+20   1e-7   null   null
-/

namespace AccessControl.Number

/-- How a number is written. -/
structure Layout where
  /-- Whether a number `0.d₁d₂… · 10 ^ point` is written without an exponent. -/
  positional : Int → Bool
  /-- What follows the last digit of a number without fraction. -/
  afterWhole : String
  /-- Which of two equally near shortest numbers is taken: the greater one, or the even one. -/
  tieUp : Bool
  undefinedText : String
  infiniteText : Bool → String

/-- Never an exponent, and no fraction for whole numbers. -/
def Layout.plain : Layout where
  positional _ := true
  afterWhole := ""
  tieUp := true
  undefinedText := "NaN"
  infiniteText negative := if negative then "-inf" else "inf"

/-- An exponent from `10 ^ 16` up and below `10 ^ -5`, and `.0` after whole numbers. -/
def Layout.json : Layout where
  positional point := decide (-5 < point) && decide (point ≤ 16)
  afterWhole := ".0"
  tieUp := false
  undefinedText := "null"
  infiniteText _ := "null"

/-- The decimal digits of a number. -/
def digitChars (n : Nat) : List Char := Nat.toDigits 10 n

def zeros (n : Nat) : List Char := List.replicate n '0'

/-- The digits with a point at their place, padded with zeros up to it. -/
def positionalText (afterWhole : String) (d : Digits) : String :=
  let ds := digitChars d.digits
  let whole := (d.point - ds.length).toNat
  if d.point ≤ 0 then String.ofList ('0' :: '.' :: zeros (-d.point).toNat ++ ds)
  else if ds.length ≤ d.point.toNat then String.ofList (ds ++ zeros whole) ++ afterWhole
  else String.ofList (ds.take d.point.toNat ++ '.' :: ds.drop d.point.toNat)

/-- One digit before the point, the other digits after it, and the exponent with its sign. -/
def exponentText (d : Digits) : String :=
  let ds := digitChars d.digits
  let head := match ds with
    | [] => ""
    | [c] => String.ofList [c]
    | c :: rest => String.ofList (c :: '.' :: rest)
  let exponent := d.point - 1
  head ++ (if exponent < 0 then "e-" else "e+") ++ String.ofList (digitChars exponent.natAbs)

/-- The text of a number in a layout. -/
def Layout.write (layout : Layout) (x : Float) : String :=
  match Reading.ofFloat x with
  | .undefined => layout.undefinedText
  | .infinite negative => layout.infiniteText negative
  | .finite b =>
    let sign := if b.negative then "-" else ""
    let d := shortest layout.tieUp b.significand b.exponent
    if b.significand = 0 || layout.positional d.point then
      sign ++ positionalText layout.afterWhole d
    else sign ++ exponentText d

/-- A number in positional notation. -/
def plainText (x : Float) : String := Layout.plain.write x

/-- A number as JSON has it; `null` for what JSON cannot hold. -/
def jsonText (x : Float) : String := Layout.json.write x

end AccessControl.Number
