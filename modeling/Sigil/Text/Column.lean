/-! Columns of text: numbers of a fixed width, hexadecimal numbers and aligned words. -/
namespace Sigil.Text

def decimal (n : Nat) : String := String.ofList (Nat.toDigits 10 n)

def signed (n : Int) : String := (if n < 0 then "-" else "") ++ decimal n.natAbs

def hexadecimal (n : Nat) : String := "0x" ++ String.ofList (Nat.toDigits 16 n)

def filler (width : Nat) (fill : Char) (text : String) : String :=
  String.ofList (List.replicate (width - text.length) fill)

def alignRight (width : Nat) (fill : Char) (text : String) : String :=
  filler width fill text ++ text

def alignLeft (width : Nat) (text : String) : String :=
  text ++ filler width ' ' text

def address (n : Nat) : String := alignRight 4 '0' (decimal n)

def spaced : List String → String
  | [] => ""
  | [item] => item
  | item :: items => item ++ " " ++ spaced items

end Sigil.Text
