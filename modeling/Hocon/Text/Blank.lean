namespace Hocon.Text

/-- The 25 characters of the Unicode property `White_Space`. -/
def isWhite (c : Char) : Bool :=
  (0x09 ≤ c.toNat && c.toNat ≤ 0x0D) || c.toNat == 0x20 || c.toNat == 0x85 || c.toNat == 0xA0 ||
    c.toNat == 0x1680 || (0x2000 ≤ c.toNat && c.toNat ≤ 0x200A) || c.toNat == 0x2028 ||
    c.toNat == 0x2029 || c.toNat == 0x202F || c.toNat == 0x205F || c.toNat == 0x3000

/-- White space inside a line, and the byte order mark wherever it stands. -/
def isBlank (c : Char) : Bool :=
  c != '\n' && (isWhite c || c == '\uFEFF')

theorem isBlank_ne_newline {c : Char} (blank : isBlank c = true) : c ≠ '\n' := by
  rintro rfl; simp [isBlank] at blank

/-- The text without the white space at its two ends. -/
def trim (text : List Char) : List Char :=
  ((text.dropWhile isWhite).reverse.dropWhile isWhite).reverse

theorem trim_of_solid {text : List Char} (solid : ∀ c ∈ text, isWhite c = false) : trim text = text := by
  have kept {part : List Char} (inside : ∀ c ∈ part, c ∈ text) : part.dropWhile isWhite = part :=
    match part with
    | [] => rfl
    | c :: _ => List.dropWhile_cons_of_neg (by simp [solid c (inside c List.mem_cons_self)])
  rw [trim, kept fun _ => id, kept fun _ => List.mem_reverse.mp, List.reverse_reverse]

/-- Nothing but white space. -/
def isAllWhite (text : String) : Bool := text.toList.all isWhite

end Hocon.Text
