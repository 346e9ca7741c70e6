import Hocon.Proofs.Json.Syntax
import Hocon.Scan.Quoted

namespace Hocon

namespace Json.Syntax

variable {c : Char} {value : Nat}

/-- Four hexadecimal digits, and the number that they write. -/
def FourDigits (hex : List Char) (code : Nat) : Prop :=
  ∃ values, List.Forall₂ Hex hex values ∧ values.length = 4 ∧
    values.foldl (fun sum value => sum * 16 + value) 0 = code

private theorem Hex.hexDigit?_eq (hex : Hex c value) : Scan.hexDigit? c = some value := by
  have both : ∀ value < 16, Scan.hexDigit? value.digitChar = some value ∧
      Scan.hexDigit? value.digitChar.toUpper = some value := by decide
  obtain ⟨small, rfl | rfl⟩ := hex
  · exact (both value small).1
  · exact (both value small).2

private theorem Hex.of_hexDigit? (known : Scan.hexDigit? c = some value) : Hex c value := by
  have below {d : Char} (small : d.toNat < 128) (le : c ≤ d) : c.toNat < 128 :=
    Nat.lt_of_le_of_lt (UInt32.le_iff_toNat_le.mp (Char.le_def.mp le)) small
  -- every digit is among the first 128 characters, where the two are compared one by one
  have ascii : c.toNat < 128 := by
    unfold Scan.hexDigit? at known
    split at known
    case isTrue digit =>
      simp only [Char.isDigit, Bool.and_eq_true, decide_eq_true_eq] at digit
      exact below (d := '9') (by decide) (Char.le_def.mpr digit.2)
    case isFalse =>
      split at known
      case isTrue lower =>
        simp only [Bool.and_eq_true, decide_eq_true_eq] at lower
        exact below (by decide) lower.2
      case isFalse =>
        split at known
        case isTrue upper =>
          simp only [Bool.and_eq_true, decide_eq_true_eq] at upper
          exact below (by decide) upper.2
        case isFalse => cases known
  have table : ∀ code < 128, ∀ value ∈ Scan.hexDigit? (Char.ofNat code), Hex (Char.ofNat code) value := by decide
  have own := table c.toNat ascii value
  rw [Char.ofNat_toNat] at own
  exact own known

theorem hex_of_map {hex : List Char} {values : List Nat} (known : hex.map Scan.hexDigit? = values.map some) :
    List.Forall₂ Hex hex values := by
  have digits : List.Forall₂ Eq (hex.map Scan.hexDigit?) (values.map some) := List.forall₂_eq_eq_eq ▸ known
  rw [List.forall₂_map_left_iff, List.forall₂_map_right_iff] at digits
  exact digits.imp fun _ _ known => .of_hexDigit? known

private theorem shortEscape?_of_mem :
    ∀ pair ∈ shorthands, pair.1 ≠ 'u' ∧ Scan.shortEscape? pair.1 = some pair.2 := by
  decide

private theorem mem_of_shortEscape? {letter : Char} (known : Scan.shortEscape? letter = some c) :
    (letter, c) ∈ shorthands := by
  unfold Scan.shortEscape? at known
  split at known
  case h_9 => cases known
  all_goals
    cases known
    decide

end Json.Syntax

namespace Scan

open Json.Syntax (FourDigits Hex shorthands)

variable {opened place : Position} {text content hex rest : List Char} {c letter : Char} {code : Nat}

theorem ok_of_map {α β : Type} {f : α → β} {scan : Scan α} {result : β}
    (scanned : (scan.map f).outcome = .ok result) : ∃ value, scan.outcome = .ok value ∧ f value = result := by
  obtain ⟨outcome, after⟩ := scan
  cases outcome with
  | error fault => cases scanned
  | ok value =>
    cases scanned
    exact ⟨value, rfl, rfl⟩

private theorem map_id {α : Type} (scan : Scan α) : scan.map id = scan := by
  obtain ⟨outcome, after⟩ := scan
  cases outcome <;> rfl

private theorem map_map {α β γ : Type} (f : α → β) (g : β → γ) (scan : Scan α) :
    (scan.map f).map g = scan.map (g ∘ f) := by
  obtain ⟨outcome, after⟩ := scan
  cases outcome <;> rfl

private theorem charOf?_toNat (c : Char) : charOf? c.toNat = some c := by
  have valid : c.toNat.isValidChar := c.valid
  rw [charOf?, if_pos valid, Char.ofNat_toNat]

private theorem toNat_of_charOf? (known : charOf? code = some c) : c.toNat = code := by
  unfold charOf? at known
  split at known
  case isTrue valid =>
    cases known
    rw [Char.ofNat, dif_pos valid]
    rfl
  case isFalse => cases known

private theorem codePoint_digit {digit : Nat} (known : hexDigit? c = some digit) (seen : List Char)
    (value : Nat) (place : Position) (missing : Nat) (rest : List Char) :
    codePoint seen value place (missing + 1) (c :: rest) =
      codePoint (seen ++ [c]) (value * 16 + digit) (place.after c) missing rest := by
  rw [codePoint]
  simp only [known]

private theorem codePoint_hex {values : List Nat} (spelled : List.Forall₂ Hex hex values)
    (seen : List Char) (value : Nat) (place : Position) (rest : List Char) :
    ∃ after, codePoint seen value place values.length (hex ++ rest) =
      codePoint (seen ++ hex) (values.foldl (fun sum value => sum * 16 + value) value) after 0 rest := by
  induction spelled generalizing seen value place with
  | nil => exact ⟨place, by simp⟩
  | @cons c digit hex values first others ih =>
    obtain ⟨after, read⟩ := ih (seen ++ [c]) (value * 16 + digit) (place.after c)
    refine ⟨after, ?_⟩
    rw [List.append_assoc, List.singleton_append] at read
    rw [List.cons_append, List.length_cons, codePoint_digit first.hexDigit?_eq, read, List.foldl_cons]

private theorem hex_of_codePoint {seen : List Char} {value missing : Nat}
    (scanned : (codePoint seen value place missing text).outcome = .ok c) :
    ∃ hex values, text = hex ++ (codePoint seen value place missing text).after.rest ∧
      List.Forall₂ Hex hex values ∧ values.length = missing ∧
      values.foldl (fun sum value => sum * 16 + value) value = c.toNat := by
  fun_induction codePoint seen value place missing text with
  | case1 seen value place rest d known =>
    cases scanned
    exact ⟨[], [], rfl, .nil, rfl, (toNat_of_charOf? known).symm⟩
  | case4 seen value place missing d rest digit known ih =>
    obtain ⟨hex, values, whole, spelled, count, sum⟩ := ih scanned
    refine ⟨d :: hex, digit :: values, congrArg (d :: ·) whole, .cons (.of_hexDigit? known) spelled, ?_, sum⟩
    rw [List.length_cons, count]
  | _ => cases scanned

private theorem escape_short (known : (letter, c) ∈ shorthands) (place : Position) (rest : List Char) :
    escape place (letter :: rest) = .ok c (place.after letter) rest := by
  obtain ⟨apart, decodes⟩ := Json.Syntax.shortEscape?_of_mem _ known
  simp only [escape, if_neg apart, decodes]

/-- The four digits behind an escape are read before it is known whether a character has their code. -/
private theorem escape_digits (digits : FourDigits hex code) (place : Position) (rest : List Char) :
    ∃ after, escape place ('u' :: (hex ++ rest)) = codePoint hex code after 0 rest := by
  obtain ⟨values, spelled, four, sum⟩ := digits
  obtain ⟨after, read⟩ := codePoint_hex spelled [] 0 (place.after 'u') rest
  refine ⟨after, ?_⟩
  rw [escape, if_pos rfl, ← four, read, sum, List.nil_append]

private theorem escape_code (digits : FourDigits hex c.toNat) (place : Position) (rest : List Char) :
    ∃ after, escape place ('u' :: (hex ++ rest)) = .ok c after rest := by
  obtain ⟨after, read⟩ := escape_digits digits place rest
  refine ⟨after, ?_⟩
  rw [read, codePoint, charOf?_toNat]

/-- An escape whose code no character has is refused behind its digits. -/
theorem escape_refused (digits : FourDigits hex code) (none : charOf? code = none) (place : Position)
    (rest : List Char) : ∃ after, escape place ('u' :: (hex ++ rest)) =
      .fail (.badEscape (String.ofList ('\\' :: 'u' :: hex)) after) after rest := by
  obtain ⟨after, read⟩ := escape_digits digits place rest
  refine ⟨after, ?_⟩
  rw [read, codePoint, none]

private theorem escape_sound (scanned : (escape place text).outcome = .ok c) :
    (∃ letter, text = letter :: (escape place text).after.rest ∧ (letter, c) ∈ shorthands) ∨
      ∃ hex, text = 'u' :: (hex ++ (escape place text).after.rest) ∧ FourDigits hex c.toNat := by
  cases text with
  | nil => cases scanned
  | cons letter rest =>
    rw [escape] at scanned ⊢
    split at scanned
    case isTrue code =>
      obtain ⟨hex, values, whole, spelled, four, sum⟩ := hex_of_codePoint scanned
      refine .inr ⟨hex, ?_, values, spelled, four, sum⟩
      rw [if_pos code, ← whole, code]
    case isFalse apart =>
      split at scanned
      case h_1 decoded known =>
        cases scanned
        refine .inl ⟨letter, ?_, Json.Syntax.mem_of_shortEscape? known⟩
        simp only [if_neg apart]
        rfl
      case h_2 => cases scanned

private theorem quoted_close : quoted opened place ('"' :: rest) = .ok [] (place.after '"') rest := by
  rw [quoted.eq_def]
  simp

private theorem quoted_raw (apart : c ≠ '"') (line : c ≠ '\n') (plain : c ≠ '\\') :
    quoted opened place (c :: rest) = (quoted opened (place.after c) rest).map (c :: ·) := by
  rw [quoted.eq_def]
  simp [apart, line, plain]

private theorem quoted_escape {after : Cursor} (scanned : escape (place.after '\\') rest = ⟨.ok c, after⟩) :
    quoted opened place ('\\' :: rest) = (quoted opened after.place after.rest).map (c :: ·) := by
  rw [quoted.eq_def]
  simp [scanned]

theorem quoted_refused {fault : Fault} {after : Cursor}
    (failed : escape (place.after '\\') rest = ⟨.error fault, after⟩) :
    quoted opened place ('\\' :: rest) = ⟨.error fault, after⟩ := by
  rw [quoted.eq_def]
  simp [failed]

/-- The inside of a quoted text, and what it is decoded to. -/
inductive Decodes : List Char → List Char → Prop where
  | nil : Decodes [] []
  | plain {c : Char} {text content : List Char} (apart : c ≠ '"') (line : c ≠ '\n') (bare : c ≠ '\\')
      (further : Decodes text content) : Decodes (c :: text) (c :: content)
  | short {letter c : Char} {text content : List Char} (known : (letter, c) ∈ shorthands)
      (further : Decodes text content) : Decodes ('\\' :: letter :: text) (c :: content)
  | code {c : Char} {hex text content : List Char} (digits : FourDigits hex c.toNat)
      (further : Decodes text content) : Decodes ('\\' :: 'u' :: (hex ++ text)) (c :: content)

/-- No quote begins what a quote ends. -/
theorem Decodes.head (decodes : Decodes text content) : ∀ c ∈ text.head?, c ≠ '"' := by
  rintro c head
  cases decodes with
  | nil => cases head
  | plain apart => cases head; exact apart
  | short => cases head; decide
  | code => cases head; decide

/-- If no quote begins the inside, or follows where there is none, no three quotes begin the text. -/
theorem single_of_head (apart : ∀ c ∈ text.head?, c ≠ '"') (ends : text = [] → rest.head? ≠ some '"') :
    ∀ more, text ++ '"' :: rest ≠ '"' :: '"' :: more := by
  intro more same
  cases text with
  | nil =>
    obtain ⟨_, rfl⟩ := List.cons.inj same
    exact ends rfl rfl
  | cons c others => exact apart c rfl (List.cons.inj same).1

/-- What is written so is decoded, and reading goes on behind it. -/
theorem Decodes.quoted_append (decodes : Decodes text content) (opened place : Position) (rest : List Char) :
    ∃ after, quoted opened place (text ++ rest) = (quoted opened after rest).map (content ++ ·) := by
  have joined {c : Char} {content : List Char} {after : Position} :
      ((quoted opened after rest).map (content ++ ·)).map (c :: ·) =
        (quoted opened after rest).map (c :: content ++ ·) := map_map _ _ _
  induction decodes generalizing place with
  | nil =>
    refine ⟨place, ?_⟩
    have same : (fun more : List Char => [] ++ more) = id := rfl
    rw [same, map_id, List.nil_append]
  | @plain c text content apart line bare _ ih =>
    obtain ⟨after, read⟩ := ih (place.after c)
    refine ⟨after, ?_⟩
    rw [List.cons_append, quoted_raw apart line bare, read, joined]
  | @short letter c text content known _ ih =>
    obtain ⟨after, read⟩ := ih ((place.after '\\').after letter)
    refine ⟨after, ?_⟩
    rw [List.cons_append, List.cons_append, quoted_escape (escape_short known _ _), read, joined]
  | @code c hex text content digits _ ih =>
    obtain ⟨middle, escaped⟩ := escape_code digits (place.after '\\') (text ++ rest)
    obtain ⟨after, read⟩ := ih middle
    refine ⟨after, ?_⟩
    rw [List.cons_append, List.cons_append, List.append_assoc, quoted_escape escaped, read, joined]

theorem Decodes.quoted (decodes : Decodes text content) (opened place : Position) (rest : List Char) :
    ∃ after, quoted opened place (text ++ '"' :: rest) = .ok content after rest := by
  obtain ⟨after, read⟩ := decodes.quoted_append opened place ('"' :: rest)
  refine ⟨after.after '"', ?_⟩
  rw [read, quoted_close, Scan.map, Scan.ok]
  simp [Except.map, Scan.ok]

theorem decodes_of_quoted (scanned : (quoted opened place text).outcome = .ok content) :
    ∃ inside, text = inside ++ '"' :: (quoted opened place text).after.rest ∧ Decodes inside content := by
  fun_induction quoted opened place text generalizing content
  case case2 place rest next =>
    cases scanned
    exact ⟨[], rfl, .nil⟩
  case case4 place rest decoded next _ _ known ih =>
    obtain ⟨further, inner, rfl⟩ := ok_of_map scanned
    obtain ⟨inside, whole, decodes⟩ := ih inner
    rcases escape_sound known with ⟨letter, written, short⟩ | ⟨hex, written, digits⟩
    · refine ⟨'\\' :: letter :: inside, congrArg ('\\' :: ·) ?_, .short short decodes⟩
      exact written.trans (congrArg (letter :: ·) whole)
    · refine ⟨'\\' :: 'u' :: (hex ++ inside), congrArg ('\\' :: ·) ?_, .code digits decodes⟩
      have behind := congrArg (fun behind => 'u' :: (hex ++ behind)) whole
      simp only [← List.append_assoc] at behind
      exact written.trans behind
  case case6 place c rest next apart line plain ih =>
    obtain ⟨further, inner, rfl⟩ := ok_of_map scanned
    obtain ⟨inside, whole, decodes⟩ := ih inner
    exact ⟨c :: inside, congrArg (c :: ·) whole, .plain apart line plain decodes⟩
  all_goals cases scanned

end Scan

/-- The inside of a JSON string is decoded as JSON has it. -/
theorem Json.Syntax.Content.decodes {text content : List Char} (inside : Content text content) :
    Scan.Decodes text content := by
  induction inside with
  | nil => exact .nil
  | plain visible apart bare _ ih =>
    refine .plain apart ?_ bare ih
    rintro rfl
    exact absurd visible (by decide)
  | short known _ ih => exact .short known ih
  | code spelled four whole _ ih => exact .code ⟨_, spelled, four, whole⟩ ih

end Hocon
