/-! # Names in the old code page

An archive that does not say that its names are UTF-8 has them in code page 437: the first half is
ASCII, the second half is a table.
-/

namespace GameExport.Archive

/-- The characters of the second half of the code page. -/
def upperHalf : Vector Char 128 :=
  #v['Ç', 'ü', 'é', 'â', 'ä', 'à', 'å', 'ç', 'ê', 'ë', 'è', 'ï', 'î', 'ì', 'Ä', 'Å', 'É', 'æ', 'Æ',
     'ô', 'ö', 'ò', 'û', 'ù', 'ÿ', 'Ö', 'Ü', '¢', '£', '¥', '₧', 'ƒ', 'á', 'í', 'ó', 'ú', 'ñ', 'Ñ',
     'ª', 'º', '¿', '⌐', '¬', '½', '¼', '¡', '«', '»', '░', '▒', '▓', '│', '┤', '╡', '╢', '╖', '╕',
     '╣', '║', '╗', '╝', '╜', '╛', '┐', '└', '┴', '┬', '├', '─', '┼', '╞', '╟', '╚', '╔', '╩', '╦',
     '╠', '═', '╬', '╧', '╨', '╤', '╥', '╙', '╘', '╒', '╓', '╫', '╪', '┘', '┌', '█', '▄', '▌', '▐',
     '▀', 'α', 'ß', 'Γ', 'π', 'Σ', 'σ', 'µ', 'τ', 'Φ', 'Θ', 'Ω', 'δ', '∞', 'φ', 'ε', '∩', '≡', '±',
     '≥', '≤', '⌠', '⌡', '÷', '≈', '°', '∙', '·', '√', 'ⁿ', '²', '■', '\u00A0']

def codePageChar (b : UInt8) : Char :=
  if h : b.toNat < 128 then Char.ofNat b.toNat
  else upperHalf.get ⟨b.toNat - 128, by have := b.toNat_lt; omega⟩

/-- The text of bytes in the code page. -/
def codePageText (bytes : List UInt8) : String := String.ofList (bytes.map codePageChar)

end GameExport.Archive
