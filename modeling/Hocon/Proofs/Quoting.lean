import Hocon.Proofs.Places
import Mathlib.Data.List.Infix

/-! Quoted texts as they are written in full. Between single quotes the inside of a JSON string is
decoded, with one exception: a character that is escaped as a surrogate pair is refused at the first
half of the pair. Between triple quotes a text stands as it is, up to the end of the first run of
three quotes or more, of which the last three close it. -/
namespace Hocon

namespace Json.Syntax

/-- Two escapes in a row that stand for one character beyond the first 65536, each for half of it. -/
def Surrogates (high low : List Char) (c : Char) : Prop :=
  ∃ first second, FourDigits high (0xD800 + first) ∧ FourDigits low (0xDC00 + second) ∧
    first < 0x400 ∧ second < 0x400 ∧ c.toNat = 0x10000 + first * 0x400 + second

/-- The inside of any string, and what it says; `paired` tells whether surrogate pairs are in it. -/
inductive Literal : Bool → List Char → List Char → Prop where
  | flat {text said : List Char} (content : Content text said) : Literal false text said
  | pair {paired : Bool} {before said high low behind more : List Char} {c : Char} (content : Content before said)
      (halves : Surrogates high low c) (further : Literal paired behind more) :
      Literal true (before ++ '\\' :: 'u' :: (high ++ '\\' :: 'u' :: (low ++ behind))) (said ++ c :: more)

private theorem Literal.head {paired : Bool} {text said : List Char} (literal : Literal paired text said) :
    ∀ c ∈ text.head?, c ≠ '"' := by
  intro c head
  cases literal with
  | flat content => exact content.decodes.head c head
  | @pair _ before _ _ _ _ _ _ content =>
    cases before with
    | nil => cases head; decide
    | cons first before => exact content.decodes.head c head

end Json.Syntax

namespace Scan

open Json.Syntax (FourDigits Surrogates)

variable {opened place : Position} {text content hex high low rest : List Char} {c : Char} {code : Nat}

private theorem Covers.place_eq {α : Type} {scan : Scan α} {used front : List Char}
    (covers : scan.Covers place text used) (whole : text = front ++ scan.after.rest) : scan.after.place = place.past front := by
  obtain rfl := List.append_cancel_right (covers.whole.symm.trans whole)
  exact covers.place

private theorem Decodes.quoted_eq (decodes : Decodes text content) (opened place : Position)
    (rest : List Char) :
    Scan.quoted opened place (text ++ '"' :: rest) = .ok content (place.past (text ++ ['"'])) rest := by
  obtain ⟨after, read⟩ := decodes.quoted opened place rest
  obtain ⟨used, covers⟩ := quoted_covers opened place (text ++ '"' :: rest)
  rw [read] at covers ⊢
  obtain rfl : after = _ := covers.place_eq (List.append_cons text '"' rest)
  rfl

/-- Behind what is decoded, an escape whose code no character has is refused. -/
private theorem Decodes.quoted_refused (decodes : Decodes text content) (digits : FourDigits hex code)
    (vacant : charOf? code = none) (opened place : Position) (rest : List Char) :
    let stop := place.past (text ++ '\\' :: 'u' :: hex)
    Scan.quoted opened place (text ++ '\\' :: 'u' :: (hex ++ rest)) =
      .fail (.badEscape (String.ofList ('\\' :: 'u' :: hex)) stop) stop rest := by
  intro stop
  obtain ⟨middle, read⟩ := decodes.quoted_append opened place ('\\' :: 'u' :: (hex ++ rest))
  obtain ⟨after, escaped⟩ := escape_refused digits vacant (middle.after '\\') rest
  obtain ⟨used, covers⟩ := quoted_covers opened place (text ++ '\\' :: 'u' :: (hex ++ rest))
  rw [read, Scan.quoted_refused escaped] at covers ⊢
  have whole : text ++ '\\' :: 'u' :: (hex ++ rest) = text ++ '\\' :: 'u' :: hex ++ rest := by simp
  obtain rfl : after = stop := covers.place_eq whole
  rfl

private theorem charOf?_surrogate (first : Nat) (small : first < 0x400) : charOf? (0xD800 + first) = none := by
  have half : ¬(0xD800 + first).isValidChar := by
    unfold Nat.isValidChar
    omega
  rw [charOf?, if_neg half]

/-- A text in which three quotes in a row stand nowhere but in the run of quotes that ends it. -/
def ClosesLast (text : List Char) : Prop :=
  ∀ before behind, text = before ++ '"' :: '"' :: '"' :: behind → ∀ c ∈ behind, c = '"'

private theorem closesLast_iff : ClosesLast text ↔
    ∀ behind ∈ text.tails, ['"', '"', '"'] <+: behind → behind.all (· == '"') := by
  constructor
  · intro last tail member front
    obtain ⟨behind, rfl⟩ := front
    obtain ⟨before, whole⟩ := (List.mem_tails _ _).mp member
    have quotes := last before behind whole.symm
    simpa using quotes
  · intro last before behind whole c member
    have within : '"' :: '"' :: '"' :: behind ∈ text.tails := (List.mem_tails _ _).mpr ⟨before, whole.symm⟩
    have quotes := List.all_eq_true.mp (last _ within (List.prefix_append ['"', '"', '"'] behind))
    exact eq_of_beq (quotes c (List.mem_append_right ['"', '"', '"'] member))

instance (text : List Char) : Decidable (ClosesLast text) := decidable_of_iff _ closesLast_iff.symm

private theorem ClosesLast.tail (last : ClosesLast (c :: text)) : ClosesLast text :=
  fun before behind whole => last (c :: before) behind (congrArg (c :: ·) whole)

/-- Where three quotes are read at once, in the text or with those that close it, nothing else is
in the text. -/
private theorem ClosesLast.quotes {more : List Char} (last : ClosesLast text)
    (front : text ++ '"' :: '"' :: '"' :: rest = '"' :: '"' :: '"' :: more) : ∀ c ∈ text, c = '"' := by
  match text with
  | [] => simp
  | [first] => simp_all
  | [first, second] => simp_all
  | first :: second :: third :: text =>
    obtain ⟨rfl, rfl, rfl, _⟩ : first = '"' ∧ second = '"' ∧ third = '"' ∧ _ := by simpa using front
    have others := last [] text rfl
    simpa using others

theorem append_quotes (quotes : ∀ c ∈ text, c = '"') (rest : List Char) :
    text ++ '"' :: '"' :: '"' :: rest = '"' :: '"' :: '"' :: (text ++ rest) := by
  induction text with
  | nil => rfl
  | cons c text ih =>
    obtain ⟨rfl, others⟩ := List.forall_mem_cons.mp quotes
    rw [List.cons_append, ih others]
    rfl

/-- Of a run of quotes the last three close the text. -/
private theorem tripleQuoted_quotes (quotes : ∀ c ∈ text, c = '"') (ends : rest.head? ≠ some '"')
    (opened place : Position) :
    tripleQuoted opened place (text ++ '"' :: '"' :: '"' :: rest) =
      .ok text (place.past (text ++ ['"', '"', '"'])) rest := by
  obtain ⟨taken, dropped⟩ := takeWhile_quotes quotes ends
  rw [append_quotes quotes, append_quotes quotes, tripleQuoted, taken, dropped, List.append_nil]

private theorem ClosesLast.tripleQuoted_eq (last : ClosesLast text) (ends : rest.head? ≠ some '"')
    (opened place : Position) :
    tripleQuoted opened place (text ++ '"' :: '"' :: '"' :: rest) =
      .ok text (place.past (text ++ ['"', '"', '"'])) rest := by
  induction text generalizing place with
  | nil => exact tripleQuoted_quotes (by simp) ends opened place
  | cons c text ih =>
    by_cases quotes : ∀ d ∈ c :: text, d = '"'
    · exact tripleQuoted_quotes quotes ends opened place
    · have going : ∀ more, c :: (text ++ '"' :: '"' :: '"' :: rest) ≠ '"' :: '"' :: '"' :: more :=
        fun more front => quotes (last.quotes front)
      rw [List.cons_append, tripleQuoted_cons going, ih last.tail (place.after c)]
      rfl

private theorem tripleQuoted_unclosed (unclosed : ¬['"', '"', '"'] <:+: text) (opened place : Position) :
    tripleQuoted opened place text = .fail (.unclosedTriple opened) (place.past text) [] := by
  induction text generalizing place with
  | nil => rfl
  | cons c text ih =>
    have going : ∀ more, c :: text ≠ '"' :: '"' :: '"' :: more := by
      intro more front
      apply unclosed
      rw [front]
      exact (List.prefix_append ['"', '"', '"'] more).isInfix
    have others : ¬['"', '"', '"'] <:+: text := fun within => unclosed (List.infix_cons within)
    rw [tripleQuoted_cons going, ih others]
    rfl

end Scan

section Cursor

open Json.Syntax Scan

variable {cursor : Cursor} {text said rest : List Char} {paired : Bool}

/-- A JSON string is read as what it says and up to its closing quote, unless a surrogate pair is
in it: then it is refused behind the first half of its first pair. -/
theorem json_string_read (literal : Literal paired text said)
    (opens : cursor.skip.rest = '"' :: (text ++ '"' :: rest)) (ends : rest.head? ≠ some '"') :
    if paired then
      ∃ before high low behind, text = before ++ '\\' :: 'u' :: (high ++ '\\' :: 'u' :: (low ++ behind)) ∧
        (∃ said, Content before said) ∧ (∃ c, Surrogates high low c) ∧
        let stop := cursor.skip.place.past ('"' :: (before ++ '\\' :: 'u' :: high))
        cursor.read.scan = .fail (.badEscape (String.ofList ('\\' :: 'u' :: high)) stop) stop
          ('\\' :: 'u' :: (low ++ behind) ++ '"' :: rest)
    else
      cursor.read.scan =
        .ok (.quoted (String.ofList said)) (cursor.skip.place.past ('"' :: (text ++ ['"']))) rest := by
  have single := single_of_head literal.head fun _ => ends
  have scanned : cursor.read.scan = _ := (congrArg (Cursor.token _) opens).trans (Lexes.token_of_quote single _)
  rw [scanned]
  cases literal with
  | flat content =>
    rw [content.decodes.quoted_eq]
    rfl
  | @pair _ before _ high low behind _ c content halves further =>
    obtain ⟨first, second, upper, _, small, _⟩ := id halves
    refine ⟨before, high, low, behind, rfl, ⟨_, content⟩, ⟨c, halves⟩, ?_⟩
    have refused := content.decodes.quoted_refused upper (charOf?_surrogate first small) cursor.skip.place.ahead
      (cursor.skip.place.after '"') ('\\' :: 'u' :: (low ++ behind) ++ '"' :: rest)
    simp only [List.append_assoc, List.cons_append] at refused ⊢
    rw [refused]
    rfl

private theorem surrogates_of_digits {high low : List Char}
    (upper : high.map hexDigit? = [13, 8, 3, 13].map some)
    (lower : low.map hexDigit? = [13, 14, 0, 0].map some) : Surrogates high low '😀' :=
  ⟨0x3D, 0x200, ⟨_, hex_of_map upper, rfl, rfl⟩, ⟨_, hex_of_map lower, rfl, rfl⟩, by decide, by decide, rfl⟩

/-- Escapes of either kind and raw characters together, and a pair of escapes behind one of them. -/
theorem mixed_strings_read :
    let mixed := ['a', '\\', 'u', '0', '0', 'e', '9', '\\', 'u', '0', '0', 'C', '9', '\\', 'n', '😀']
    let paired := ['\\', 't', '\\', 'u', 'd', '8', '3', 'D', '\\', 'u', 'd', 'E', '0', '0']
    (Literal false mixed ['a', 'é', 'É', '\n', '😀'] ∧
      (⟨.origin, ' ' :: '"' :: (mixed ++ ['"', ','])⟩ : Cursor).read.scan =
        .ok (.quoted "aéÉ\n😀") ⟨1, 19⟩ [',']) ∧
      Literal true paired ['\t', '😀'] ∧
        (⟨.origin, '"' :: (paired ++ ['"'])⟩ : Cursor).read.scan.outcome.isOk = false := by
  intro mixed paired
  have newline : ('n', '\n') ∈ shorthands := by decide
  have tab : ('t', '\t') ∈ shorthands := by decide
  have small : List.Forall₂ Hex ['0', '0', 'e', '9'] [0, 0, 14, 9] := hex_of_map rfl
  have capital : List.Forall₂ Hex ['0', '0', 'C', '9'] [0, 0, 12, 9] := hex_of_map rfl
  have raw : Content ['😀'] _ := .plain (by decide) (by decide) (by decide) .nil
  have content : Content mixed ['a', 'é', 'É', '\n', '😀'] := .plain (by decide) (by decide) (by decide)
    (.code small rfl rfl (.code capital rfl rfl (.short newline raw)))
  have halves : Surrogates ['d', '8', '3', 'D'] ['d', 'E', '0', '0'] '😀' := surrogates_of_digits rfl rfl
  have literal : Literal true paired ['\t', '😀'] := .pair (.short tab .nil) halves (.flat .nil)
  refine ⟨⟨.flat content, ?_⟩, literal, ?_⟩
  · exact json_string_read (.flat content) rfl (by decide)
  · obtain ⟨_, _, _, _, _, _, _, refused⟩ :=
      @json_string_read ⟨.origin, '"' :: (paired ++ ['"'])⟩ _ _ [] _ literal rfl (by decide)
    rw [refused]
    rfl

/-- Not every string is read: a surrogate pair stands for a character, and is refused. -/
theorem surrogate_pair_not_read :
    ¬∀ {cursor : Cursor} {text said rest : List Char} {paired : Bool}, Literal paired text said →
      cursor.skip.rest = '"' :: (text ++ '"' :: rest) → rest.head? ≠ some '"' →
      cursor.read.scan =
        .ok (.quoted (String.ofList said)) (cursor.skip.place.past ('"' :: (text ++ ['"']))) rest := by
  intro always
  have halves : Surrogates ['d', '8', '3', 'd'] ['d', 'e', '0', '0'] '😀' := surrogates_of_digits rfl rfl
  have literal : Literal true _ ['😀'] := .pair .nil halves (.flat .nil)
  have read := @always (.ofText "\"\\ud83d\\ude00\"\n") _ _ ['\n'] _ literal rfl (by decide)
  have refused : (Cursor.ofText "\"\\ud83d\\ude00\"\n").read.scan.outcome.isOk = false := by decide +kernel
  rw [read] at refused
  cases refused

/-- What stands between triple quotes is read as it is, with quotes at either end of it and no end of
the token but behind the last quote of the run that closes it. Where no three quotes follow, reading
goes on to the end of the text, and the fault names the place of the quotes that opened it. -/
theorem triple_quotes_verbatim {behind : List Char} (opens : cursor.skip.rest = '"' :: '"' :: '"' :: behind) :
    (∀ text rest, behind = text ++ '"' :: '"' :: '"' :: rest → ClosesLast text → rest.head? ≠ some '"' →
      cursor.read.scan = .ok (.quoted (String.ofList text))
        (cursor.skip.place.past ('"' :: '"' :: '"' :: (text ++ ['"', '"', '"']))) rest) ∧
      (¬['"', '"', '"'] <:+: behind → cursor.read.scan =
        .fail (.unclosedTriple cursor.read.start) (cursor.skip.place.past ('"' :: '"' :: '"' :: behind)) []) := by
  have scanned : cursor.read.scan = (tripleQuoted cursor.skip.place.ahead
      (cursor.skip.place.past ['"', '"', '"']) behind).map (.quoted ∘ String.ofList) :=
    congrArg (Cursor.token cursor.skip.place) opens
  rw [scanned]
  constructor
  · rintro text rest rfl last ends
    rw [last.tripleQuoted_eq ends]
    rfl
  · intro unclosed
    rw [tripleQuoted_unclosed unclosed]
    rfl

/-- Four quotes at the end of a text besides the closing ones, and a text that ends after two. -/
theorem quotes_verbatim_at_ends :
    let text := ['\n', '\\', 'n', '"', '"', 'x', '"', '"', '"', '"']
    (ClosesLast text ∧ (⟨.origin, '"' :: '"' :: '"' :: (text ++ ['"', '"', '"', ','])⟩ : Cursor).read.scan =
        .ok (.quoted (String.ofList text)) ⟨2, 12⟩ [',']) ∧
      ¬['"', '"', '"'] <:+: ['x', '"', '"'] ∧
        (⟨.origin, ['"', '"', '"', 'x', '"', '"']⟩ : Cursor).read.scan =
          .fail (.unclosedTriple ⟨1, 1⟩) ⟨1, 6⟩ [] := by
  intro text
  have last : ClosesLast text := by decide
  have unclosed : ¬['"', '"', '"'] <:+: ['x', '"', '"'] := by decide
  refine ⟨⟨last, ?_⟩, unclosed, ?_⟩
  · exact (@triple_quotes_verbatim ⟨.origin, _⟩ _ rfl).1 text [','] rfl last (by decide)
  · exact (@triple_quotes_verbatim ⟨.origin, _⟩ _ rfl).2 unclosed

end Cursor
end Hocon
