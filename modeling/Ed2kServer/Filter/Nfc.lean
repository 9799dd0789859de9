import Ed2kServer.Filter.Check

namespace Ed2kServer.Filter.Nfc

open Ed2kServer.Text.Chars Ed2kServer.Filter.Check

/-- A letter, a mark, and the letter that both are. -/
def compositions : List (Char × Nat × Char) :=
  [('a', 0x0300, 'à'), ('a', 0x0301, 'á'), ('a', 0x0302, 'â'), ('a', 0x0303, 'ã'),
   ('a', 0x0304, 'ā'), ('a', 0x0306, 'ă'), ('a', 0x0307, 'ȧ'), ('a', 0x0308, 'ä'),
   ('a', 0x030A, 'å'), ('a', 0x030C, 'ǎ'), ('a', 0x0328, 'ą'), ('e', 0x0300, 'è'),
   ('e', 0x0301, 'é'), ('e', 0x0302, 'ê'), ('e', 0x0303, 'ẽ'), ('e', 0x0304, 'ē'),
   ('e', 0x0306, 'ĕ'), ('e', 0x0307, 'ė'), ('e', 0x0308, 'ë'), ('e', 0x030C, 'ě'),
   ('e', 0x0327, 'ȩ'), ('e', 0x0328, 'ę'), ('i', 0x0300, 'ì'), ('i', 0x0301, 'í'),
   ('i', 0x0302, 'î'), ('i', 0x0303, 'ĩ'), ('i', 0x0304, 'ī'), ('i', 0x0306, 'ĭ'),
   ('i', 0x0308, 'ï'), ('i', 0x030C, 'ǐ'), ('i', 0x0328, 'į'), ('o', 0x0300, 'ò'),
   ('o', 0x0301, 'ó'), ('o', 0x0302, 'ô'), ('o', 0x0303, 'õ'), ('o', 0x0304, 'ō'),
   ('o', 0x0306, 'ŏ'), ('o', 0x0307, 'ȯ'), ('o', 0x0308, 'ö'), ('o', 0x030B, 'ő'),
   ('o', 0x030C, 'ǒ'), ('o', 0x0328, 'ǫ'), ('u', 0x0300, 'ù'), ('u', 0x0301, 'ú'),
   ('u', 0x0302, 'û'), ('u', 0x0303, 'ũ'), ('u', 0x0304, 'ū'), ('u', 0x0306, 'ŭ'),
   ('u', 0x0308, 'ü'), ('u', 0x030A, 'ů'), ('u', 0x030B, 'ű'), ('u', 0x030C, 'ǔ'),
   ('u', 0x0328, 'ų'), ('y', 0x0300, 'ỳ'), ('y', 0x0301, 'ý'), ('y', 0x0302, 'ŷ'),
   ('y', 0x0303, 'ỹ'), ('y', 0x0304, 'ȳ'), ('y', 0x0307, 'ẏ'), ('y', 0x0308, 'ÿ'),
   ('y', 0x030A, 'ẙ'), ('n', 0x0300, 'ǹ'), ('n', 0x0301, 'ń'), ('n', 0x0303, 'ñ'),
   ('n', 0x0307, 'ṅ'), ('n', 0x030C, 'ň'), ('n', 0x0327, 'ņ'), ('c', 0x0301, 'ć'),
   ('c', 0x0302, 'ĉ'), ('c', 0x0307, 'ċ'), ('c', 0x030C, 'č'), ('c', 0x0327, 'ç'),
   ('s', 0x0301, 'ś'), ('s', 0x0302, 'ŝ'), ('s', 0x0307, 'ṡ'), ('s', 0x030C, 'š'),
   ('s', 0x0327, 'ş'), ('z', 0x0301, 'ź'), ('z', 0x0302, 'ẑ'), ('z', 0x0307, 'ż'),
   ('z', 0x030C, 'ž'), ('r', 0x0301, 'ŕ'), ('r', 0x0307, 'ṙ'), ('r', 0x030C, 'ř'),
   ('r', 0x0327, 'ŗ'), ('d', 0x0307, 'ḋ'), ('d', 0x030C, 'ď'), ('d', 0x0327, 'ḑ'),
   ('t', 0x0307, 'ṫ'), ('t', 0x0308, 'ẗ'), ('t', 0x030C, 'ť'), ('t', 0x0327, 'ţ'),
   ('l', 0x0301, 'ĺ'), ('l', 0x030C, 'ľ'), ('l', 0x0327, 'ļ'), ('g', 0x0301, 'ǵ'),
   ('g', 0x0302, 'ĝ'), ('g', 0x0304, 'ḡ'), ('g', 0x0306, 'ğ'), ('g', 0x0307, 'ġ'),
   ('g', 0x030C, 'ǧ'), ('g', 0x0327, 'ģ'), ('k', 0x0301, 'ḱ'), ('k', 0x030C, 'ǩ'),
   ('k', 0x0327, 'ķ'), ('h', 0x0302, 'ĥ'), ('h', 0x0307, 'ḣ'), ('h', 0x0308, 'ḧ'),
   ('h', 0x030C, 'ȟ'), ('h', 0x0327, 'ḩ'), ('j', 0x0302, 'ĵ'), ('j', 0x030C, 'ǰ'),
   ('w', 0x0300, 'ẁ'), ('w', 0x0301, 'ẃ'), ('w', 0x0302, 'ŵ'), ('w', 0x0307, 'ẇ'),
   ('w', 0x0308, 'ẅ'), ('w', 0x030A, 'ẘ'), ('A', 0x0300, 'À'), ('A', 0x0301, 'Á'),
   ('A', 0x0302, 'Â'), ('A', 0x0303, 'Ã'), ('A', 0x0304, 'Ā'), ('A', 0x0306, 'Ă'),
   ('A', 0x0307, 'Ȧ'), ('A', 0x0308, 'Ä'), ('A', 0x030A, 'Å'), ('A', 0x030C, 'Ǎ'),
   ('A', 0x0328, 'Ą'), ('E', 0x0300, 'È'), ('E', 0x0301, 'É'), ('E', 0x0302, 'Ê'),
   ('E', 0x0303, 'Ẽ'), ('E', 0x0304, 'Ē'), ('E', 0x0306, 'Ĕ'), ('E', 0x0307, 'Ė'),
   ('E', 0x0308, 'Ë'), ('E', 0x030C, 'Ě'), ('E', 0x0327, 'Ȩ'), ('E', 0x0328, 'Ę'),
   ('I', 0x0300, 'Ì'), ('I', 0x0301, 'Í'), ('I', 0x0302, 'Î'), ('I', 0x0303, 'Ĩ'),
   ('I', 0x0304, 'Ī'), ('I', 0x0306, 'Ĭ'), ('I', 0x0307, 'İ'), ('I', 0x0308, 'Ï'),
   ('I', 0x030C, 'Ǐ'), ('I', 0x0328, 'Į'), ('O', 0x0300, 'Ò'), ('O', 0x0301, 'Ó'),
   ('O', 0x0302, 'Ô'), ('O', 0x0303, 'Õ'), ('O', 0x0304, 'Ō'), ('O', 0x0306, 'Ŏ'),
   ('O', 0x0307, 'Ȯ'), ('O', 0x0308, 'Ö'), ('O', 0x030B, 'Ő'), ('O', 0x030C, 'Ǒ'),
   ('O', 0x0328, 'Ǫ'), ('U', 0x0300, 'Ù'), ('U', 0x0301, 'Ú'), ('U', 0x0302, 'Û'),
   ('U', 0x0303, 'Ũ'), ('U', 0x0304, 'Ū'), ('U', 0x0306, 'Ŭ'), ('U', 0x0308, 'Ü'),
   ('U', 0x030A, 'Ů'), ('U', 0x030B, 'Ű'), ('U', 0x030C, 'Ǔ'), ('U', 0x0328, 'Ų'),
   ('Y', 0x0300, 'Ỳ'), ('Y', 0x0301, 'Ý'), ('Y', 0x0302, 'Ŷ'), ('Y', 0x0303, 'Ỹ'),
   ('Y', 0x0304, 'Ȳ'), ('Y', 0x0307, 'Ẏ'), ('Y', 0x0308, 'Ÿ'), ('N', 0x0300, 'Ǹ'),
   ('N', 0x0301, 'Ń'), ('N', 0x0303, 'Ñ'), ('N', 0x0307, 'Ṅ'), ('N', 0x030C, 'Ň'),
   ('N', 0x0327, 'Ņ'), ('C', 0x0301, 'Ć'), ('C', 0x0302, 'Ĉ'), ('C', 0x0307, 'Ċ'),
   ('C', 0x030C, 'Č'), ('C', 0x0327, 'Ç'), ('S', 0x0301, 'Ś'), ('S', 0x0302, 'Ŝ'),
   ('S', 0x0307, 'Ṡ'), ('S', 0x030C, 'Š'), ('S', 0x0327, 'Ş'), ('Z', 0x0301, 'Ź'),
   ('Z', 0x0302, 'Ẑ'), ('Z', 0x0307, 'Ż'), ('Z', 0x030C, 'Ž'), ('R', 0x0301, 'Ŕ'),
   ('R', 0x0307, 'Ṙ'), ('R', 0x030C, 'Ř'), ('R', 0x0327, 'Ŗ'), ('D', 0x0307, 'Ḋ'),
   ('D', 0x030C, 'Ď'), ('D', 0x0327, 'Ḑ'), ('T', 0x0307, 'Ṫ'), ('T', 0x030C, 'Ť'),
   ('T', 0x0327, 'Ţ'), ('L', 0x0301, 'Ĺ'), ('L', 0x030C, 'Ľ'), ('L', 0x0327, 'Ļ'),
   ('G', 0x0301, 'Ǵ'), ('G', 0x0302, 'Ĝ'), ('G', 0x0304, 'Ḡ'), ('G', 0x0306, 'Ğ'),
   ('G', 0x0307, 'Ġ'), ('G', 0x030C, 'Ǧ'), ('G', 0x0327, 'Ģ'), ('K', 0x0301, 'Ḱ'),
   ('K', 0x030C, 'Ǩ'), ('K', 0x0327, 'Ķ'), ('H', 0x0302, 'Ĥ'), ('H', 0x0307, 'Ḣ'),
   ('H', 0x0308, 'Ḧ'), ('H', 0x030C, 'Ȟ'), ('H', 0x0327, 'Ḩ'), ('J', 0x0302, 'Ĵ'),
   ('W', 0x0300, 'Ẁ'), ('W', 0x0301, 'Ẃ'), ('W', 0x0302, 'Ŵ'), ('W', 0x0307, 'Ẇ'),
   ('W', 0x0308, 'Ẅ')]

def compose (base : Char) (mark : Nat) : Option Char :=
  (compositions.find? fun row => row.1 == base && row.2.1 == mark).map fun row => row.2.2

set_option maxRecDepth 8000 in
/-- Only marks are composed, and into letters that are none. -/
theorem compose_marks {base c : Char} {mark : Nat} (h : compose base mark = some c) :
    isCombiningMark (Char.ofNat mark) = true ∧ isCombiningMark c = false := by
  have hall : compositions.all (fun row =>
      isCombiningMark (Char.ofNat row.2.1) && !isCombiningMark row.2.2) = true := by decide
  obtain ⟨row, hrow, rfl⟩ := Option.map_eq_some_iff.mp h
  have hkey := List.find?_some hrow
  have hmarks := List.all_eq_true.mp hall row (List.mem_of_find?_eq_some hrow)
  rw [Bool.and_eq_true, beq_iff_eq, beq_iff_eq] at hkey
  rw [Bool.and_eq_true, Bool.not_eq_true', hkey.2] at hmarks
  exact hmarks

end Ed2kServer.Filter.Nfc
