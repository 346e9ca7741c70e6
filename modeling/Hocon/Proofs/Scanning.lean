import Hocon.Proofs.Grammar.Reference
import Mathlib.Data.List.TakeWhile

namespace Hocon

/-- A text that ends a word just as another one does. -/
def Akin (first second : List Char) : Prop :=
  Lexes.Bounded second ∨ (first.head? = second.head? ∧ startsComment first = startsComment second)

theorem Akin.refl (text : List Char) : Akin text text := .inr ⟨rfl, rfl⟩

namespace Scan

variable {text other : List Char} {opened start place : Position}

theorem quoted_front {content : List Char} (scanned : (quoted opened place text).outcome = .ok content) :
    ∃ used, text = used ++ '"' :: (quoted opened place text).after.rest ∧
      ∀ other opened place, ∃ after, quoted opened place (used ++ '"' :: other) = .ok content after other := by
  obtain ⟨used, whole, decodes⟩ := decodes_of_quoted scanned
  exact ⟨used, whole, fun other opened place => decodes.quoted opened place other⟩

theorem tripleQuoted_cons {c : Char} {rest : List Char} (going : ∀ more, c :: rest ≠ '"' :: '"' :: '"' :: more) :
    tripleQuoted opened place (c :: rest) = (tripleQuoted opened (place.after c) rest).map (c :: ·) := by
  rw [tripleQuoted.eq_def]
  split
  case h_1 same => cases same
  case h_2 more same => exact absurd same (going more)
  case h_3 same => cases same; rfl

theorem takeWhile_quotes {quotes : List Char} (all : ∀ c ∈ quotes, c = '"') (ends : other.head? ≠ some '"') :
    (quotes ++ other).takeWhile (· == '"') = quotes ∧ (quotes ++ other).dropWhile (· == '"') = other := by
  have all : ∀ c ∈ quotes, (c == '"') = true := by simpa using all
  rw [List.takeWhile_append_of_pos all, List.dropWhile_append_of_pos all]
  cases other with
  | nil => simp
  | cons c other =>
    have apart : c ≠ '"' := by simpa using ends
    simp [apart]

/-- A quoted text does not begin with three quotes, whatever follows it that is no quote either. -/
theorem single_front {used first second : List Char} (single : ∀ more, used ++ '"' :: first ≠ '"' :: '"' :: more)
    (apart : used = [] → first.head? ≠ some '"' → second.head? ≠ some '"') :
    ∀ more, used ++ '"' :: second ≠ '"' :: '"' :: more := by
  intro more same
  cases used with
  | nil =>
    have head : first.head? ≠ some '"' := by
      intro head
      obtain ⟨rest, rfl⟩ := List.head?_eq_some_iff.mp head
      exact single rest rfl
    exact apart rfl head (by simp_all)
  | cons c used =>
    cases used with
    | nil => exact single first (by simp_all)
    | cons d used => exact single (used ++ '"' :: first) (by simp_all)

/-- Quotes behind three closing ones belong to the text, so no quote may follow it. -/
theorem tripleQuoted_front {content : List Char}
    (scanned : (tripleQuoted opened place text).outcome = .ok content) :
    ∃ first second used, text = first :: second :: used ++ (tripleQuoted opened place text).after.rest ∧
      (first :: second :: used).getLast? = some '"' ∧
      (tripleQuoted opened place text).after.rest.head? ≠ some '"' ∧ ∀ other, other.head? ≠ some '"' → ∀ opened place,
        ∃ after, tripleQuoted opened place (first :: second :: used ++ other) = .ok content after other := by
  fun_induction tripleQuoted opened place text generalizing content
  case case1 => cases scanned
  case case2 place rest =>
    cases scanned
    have all : ∀ c ∈ rest.takeWhile (· == '"'), c = '"' := fun c member => by
      simpa using List.mem_takeWhile_imp member
    refine ⟨'"', '"', '"' :: rest.takeWhile (· == '"'), ?_, ?_, ?_, ?_⟩
    · simp [List.takeWhile_append_dropWhile]
    · rw [List.getLast?_cons_cons, List.getLast?_cons_cons, List.getLast?_cons]
      cases last : (rest.takeWhile (· == '"')).getLast? with
      | none => rfl
      | some c => rw [all c (List.mem_of_getLast? last)]; rfl
    · intro head
      have kept := List.head?_dropWhile_not (· == '"') rest
      rw [after_ok] at head
      simp [head] at kept
    · intro other ends opened place
      obtain ⟨taken, dropped⟩ := takeWhile_quotes all ends
      exact ⟨_, by simp only [List.cons_append, tripleQuoted, taken, dropped]; rfl⟩
  case case3 place c rest going ih =>
    obtain ⟨inside, inner, rfl⟩ := ok_of_map scanned
    obtain ⟨first, second, used, whole, last, apart, further⟩ := ih inner
    have whole : c :: rest = c :: first :: second :: used ++ (tripleQuoted opened (place.after c) rest).after.rest :=
      congrArg (c :: ·) whole
    refine ⟨c, first, second :: used, whole, last, apart, fun other ends opened place => ?_⟩
    have going : ∀ more, c :: (first :: second :: used ++ other) ≠ '"' :: '"' :: '"' :: more := by
      intro more same
      simp only [List.cons_append, List.cons.injEq] at same
      obtain ⟨rfl, rfl, rfl, _⟩ := same
      exact going _ rfl (List.cons.inj whole).2
    obtain ⟨after, remains⟩ := further other ends opened (place.after c)
    exact ⟨after, by rw [List.cons_append, tripleQuoted_cons going, remains]; rfl⟩

end Scan

theorem startsComment_cons {c : Char} {rest : List Char} :
    startsComment (c :: rest) = true ↔ c = '#' ∨ c = '/' ∧ rest.head? = some '/' := by
  unfold startsComment
  split
  case h_1 same =>
    cases same
    simp
  case h_2 same =>
    cases same
    simp
  case h_3 hash slashes =>
    refine iff_of_false Bool.false_ne_true ?_
    rintro (rfl | ⟨rfl, head⟩)
    · exact hash rest rfl
    · obtain ⟨more, rfl⟩ := List.head?_eq_some_iff.mp head
      exact slashes more rfl

namespace Akin

variable {first second : List Char}

theorem of_head {c : Char} (same : startsComment (c :: first) = startsComment (c :: second)) :
    Akin (c :: first) (c :: second) := .inr ⟨rfl, same⟩

private theorem head_ne_quote (akin : Akin first second) (apart : first.head? ≠ some '"') :
    second.head? ≠ some '"' := by
  rcases akin with bounded | ⟨same, _⟩
  · intro head
    exact (bounded '"' head).2 rfl
  · rwa [← same]

private theorem startsComment_slash (akin : Akin first second) (code : startsComment ('/' :: first) = false) :
    startsComment ('/' :: second) = false := by
  rw [Bool.eq_false_iff, ne_eq, startsComment_cons] at code ⊢
  rcases akin with bounded | ⟨same, _⟩
  · rintro (hash | ⟨_, head⟩)
    · cases hash
    · exact absurd (bounded '/' head).1 (by decide)
  · rwa [← same]

private theorem word_nil (akin : Akin first second) (ended : word first = ([], first)) :
    word second = ([], second) := by
  cases second with
  | nil => rfl
  | cons c second =>
    have stops : isForbidden c || startsComment (c :: second) := by
      rcases akin with bounded | ⟨same, comment⟩
      · rw [(bounded c rfl).1, Bool.true_or]
      · cases first with
        | nil => cases same
        | cons d first =>
          obtain rfl : d = c := Option.some.inj same
          rw [word] at ended
          split at ended
          case isTrue stops => rwa [← comment]
          case isFalse => cases (congrArg Prod.fst ended)
    rw [word, if_pos stops]

end Akin

/-- Whether a comment begins is seen from two characters. -/
theorem startsComment_front {c : Char} {used first second : List Char}
    (code : startsComment (c :: used ++ first) = false) (akin : used = [] → c = '/' → Akin first second) :
    startsComment (c :: used ++ second) = false := by
  cases used with
  | nil =>
    by_cases slash : c = '/'
    · subst slash
      exact (akin rfl rfl).startsComment_slash code
    · rw [Bool.eq_false_iff, ne_eq, List.cons_append, startsComment_cons] at code ⊢
      simpa [slash] using code
  | cons d used =>
    rw [Bool.eq_false_iff, ne_eq, List.cons_append, startsComment_cons] at code ⊢
    exact code

/-- A word ends with the same letters before what is akin. -/
private theorem word_front {text other : List Char} (akin : Akin (word text).2 other) :
    word ((word text).1 ++ other) = ((word text).1, other) := by
  induction text with
  | nil => exact akin.word_nil rfl
  | cons c rest ih =>
    by_cases stops : isForbidden c || startsComment (c :: rest)
    · have ended : word (c :: rest) = ([], c :: rest) := by rw [word, if_pos stops]
      rw [ended] at akin ⊢
      exact akin.word_nil ended
    · have going : word (c :: rest) = (c :: (word rest).1, (word rest).2) := by rw [word, if_neg stops]
      rw [going] at akin ⊢
      obtain ⟨letter, code⟩ : isForbidden c = false ∧ startsComment (c :: rest) = false := by simpa using stops
      rw [← word_append rest] at code
      have code := startsComment_front code fun _ _ => akin
      rw [List.cons_append] at code ⊢
      rw [word, letter, code, ih akin]
      rfl

namespace Scan

/-- A reference ends with its brace. -/
theorem reference_front {start place : Position} {text : List Char} {token : Token}
    (scanned : (reference start place text).outcome = .ok token) :
    ∃ used, text = used ++ '\x7d' :: (reference start place text).after.rest ∧ token.isWord = false ∧
      ∀ other start place, ∃ after, reference start place (used ++ '\x7d' :: other) = .ok token after other := by
  obtain ⟨path, optional, content, atoms, rfl, inscribes, made, whole⟩ := Grammar.inscribes_of_reference scanned
  refine ⟨'\x7b' :: (Grammar.question optional ++ content), whole, rfl, fun other start place => ?_⟩
  have read := inscribes.reference start place optional other
  rw [made] at read
  exact read

end Scan

namespace Cursor

theorem token_of_symbol {c : Char} {symbol : Token} (known : symbol? c = some symbol) (place : Position)
    (text : List Char) : token place (c :: text) = .ok symbol (place.after c) text := by
  unfold symbol? at known
  split at known
  case h_9 => cases known
  all_goals
    cases known
    rfl

/-- A token is the same wherever it stands, if what follows lets it end there. -/
theorem token_front {place : Position} {text : List Char} {found : Token} (code : startsComment text = false)
    (scanned : (token place text).outcome = .ok found) (proper : found ≠ .endOfText) :
    ∃ c used, text = c :: used ++ (token place text).after.rest ∧
      ((c :: used).getLast? = some '\n' → found = .newline) ∧
      ∀ other, (found.isWord = true → Akin (token place text).after.rest other) →
        ∀ place, ∃ after, token place (c :: used ++ other) = .ok found after other := by
  generalize whole : token place text = scan at scanned ⊢
  unfold token at whole
  split at whole
  case h_1 =>
    subst whole
    cases scanned
    exact absurd rfl proper
  case h_2 rest =>
    subst whole
    cases scanned
    exact ⟨'+', ['='], rfl, by simp, fun other _ place => ⟨_, rfl⟩⟩
  case h_3 rest =>
    subst whole
    obtain ⟨used, same, _, further⟩ := Scan.reference_front scanned
    have last : ('$' :: (used ++ ['\x7d'])).getLast? = some '\x7d' := List.getLast?_concat (l := '$' :: used)
    refine ⟨'$', used ++ ['\x7d'], by simp [← same], by simp [last], fun other _ place => ?_⟩
    obtain ⟨after, read⟩ := further other place.ahead (place.after '$')
    exact ⟨after, by rw [← read, List.cons_append, List.append_assoc]; rfl⟩
  case h_4 rest =>
    subst whole
    obtain ⟨content, inner, same⟩ := Scan.ok_of_map scanned
    subst same
    obtain ⟨first, second, used, same, last, apart, further⟩ := Scan.tripleQuoted_front inner
    refine ⟨'"', '"' :: '"' :: first :: second :: used, ?_, ?_, fun other akin place => ?_⟩
    · rw [Scan.after_map]
      exact congrArg ('"' :: '"' :: '"' :: ·) same
    · rw [List.getLast?_cons_cons, List.getLast?_cons_cons, List.getLast?_cons_cons, last]
      simp
    · have apart : other.head? ≠ some '"' := (akin rfl).head_ne_quote apart
      obtain ⟨after, read⟩ := further other apart place.ahead (place.past ['"', '"', '"'])
      exact ⟨after, congrArg (Scan.map _) read⟩
  case h_5 rest single =>
    subst whole
    obtain ⟨content, inner, same⟩ := Scan.ok_of_map scanned
    subst same
    obtain ⟨used, same, further⟩ := Scan.quoted_front inner
    have last : ('"' :: (used ++ ['"'])).getLast? = some '"' := List.getLast?_concat (l := '"' :: used)
    refine ⟨'"', used ++ ['"'], by simp [← same], by simp [last], fun other akin place => ?_⟩
    have single : ∀ more, used ++ '"' :: other ≠ '"' :: '"' :: more :=
      Scan.single_front (same ▸ single) fun _ => (akin rfl).head_ne_quote
    obtain ⟨after, read⟩ := further other place.ahead (place.after '"')
    refine ⟨after, ?_⟩
    have whole : '"' :: (used ++ ['"']) ++ other = '"' :: (used ++ '"' :: other) := by simp
    rw [whole, Lexes.token_of_quote single, read]
    rfl
  case h_6 c rest _ _ _ _ =>
    split at whole
    case h_1 symbol known =>
      subst whole
      cases scanned
      refine ⟨c, [], rfl, ?_, fun other _ place => ⟨_, token_of_symbol known place other⟩⟩
      intro newline
      obtain rfl : c = '\n' := Option.some.inj newline
      exact (Option.some.inj known).symm
    case h_2 known =>
      split at whole
      case isTrue =>
        subst whole
        cases scanned
      case isFalse letter =>
        subst whole
        cases scanned
        have letter : isForbidden c = false := by simpa using letter
        have whole := word_of_letter letter code
        refine ⟨c, (word rest).1, ?_, ?_, fun other akin place => ?_⟩
        · rw [Scan.after_ok, whole, List.cons_append, word_append]
        · intro newline
          have member : '\n' ∈ (word (c :: rest)).1 := whole ▸ List.mem_of_getLast? newline
          exact absurd (word_letters _ _ member) (by decide)
        · have ended := word_front (akin rfl)
          rw [whole, List.cons_append] at ended
          rw [whole, List.cons_append, Lexes.token_of_letter letter, ended]
          exact ⟨_, rfl⟩

private theorem isWord_of_slash {place : Position} {rest : List Char} {found : Token}
    (scanned : (token place ('/' :: rest)).outcome = .ok found) : found.isWord = true := by
  rw [Lexes.token_of_letter (by decide)] at scanned
  cases scanned
  rfl

theorem comment_append (text : List Char) : comment text ++ text.drop (comment text).length = text := by
  refine List.prefix_iff_eq_append.mp ?_
  unfold comment
  split
  · exact List.takeWhile_prefix _
  · exact List.nil_prefix

/-- A comment is the same whatever follows the token behind it. -/
private theorem comment_front {text used rest other : List Char} {c : Char}
    (whole : text = comment text ++ (c :: used ++ rest)) (akin : used = [] → c = '/' → Akin rest other) :
    comment (comment text ++ (c :: used ++ other)) = comment text := by
  by_cases code : startsComment text = true
  case neg =>
    have none : comment text = [] := if_neg code
    rw [none, List.nil_append] at whole ⊢
    rw [whole] at code
    exact if_neg (by simpa using startsComment_front (by simpa using code) akin)
  have remark : comment text = text.takeWhile (· != '\n') := if_pos code
  -- the comment goes on up to the newline, which is the token
  have newline : c = '\n' := by
    have behind : text.dropWhile (· != '\n') = c :: used ++ rest := by
      have again : text.takeWhile (· != '\n') ++ text.dropWhile (· != '\n') =
          text.takeWhile (· != '\n') ++ (c :: used ++ rest) := by
        rw [List.takeWhile_append_dropWhile, ← remark]
        exact whole
      exact List.append_cancel_left again
    have kept := List.head?_dropWhile_not (· != '\n') text
    simpa [behind] using kept
  have inside : ∀ d ∈ comment text, (d != '\n') = true := by
    rw [remark]
    exact fun d member => List.mem_takeWhile_imp (p := (· != '\n')) member
  have begins : startsComment (comment text ++ (c :: used ++ other)) = true := by
    cases first : comment text with
    | nil => 
      rw [whole, first, newline] at code
      cases code
    | cons d more =>
      rw [whole, first, List.cons_append, startsComment_cons] at code
      rw [List.cons_append, startsComment_cons]
      cases more with
      | nil => simpa [newline] using code
      | cons e more => exact code
  rw [comment, if_pos begins, List.takeWhile_append_of_pos inside]
  simp [newline]

theorem startsComment_of_comment {text : List Char} (none : comment text = []) : startsComment text = false := by
  rw [Bool.eq_false_iff]
  intro begins
  rw [comment, if_pos begins] at none
  cases text with
  | nil => cases begins
  | cons c text =>
    rw [startsComment_cons] at begins
    have apart : c ≠ '\n' := by rcases begins with rfl | ⟨rfl, _⟩ <;> decide
    simp [apart] at none

/-- Texts that share two characters, or one that is a token by itself, are akin. -/
private theorem akin_front {gap used first second : List Char} {c : Char}
    (code : gap = [] → startsComment (c :: used ++ first) = false)
    (akin : used = [] → c = '/' → Akin first second) :
    Akin (gap ++ (c :: used ++ first)) (gap ++ (c :: used ++ second)) := by
  cases gap with
  | nil => exact .of_head ((code rfl).trans (startsComment_front (code rfl) akin).symm)
  | cons d gap =>
    refine .of_head (Bool.eq_iff_iff.mpr ?_)
    rw [← List.append_eq, ← List.append_eq, startsComment_cons, startsComment_cons]
    cases gap <;> rfl

private theorem skip_front {cursor : Cursor} {used rest other : List Char} {c : Char}
    (whole : cursor.skip.rest = c :: used ++ rest) (akin : used = [] → c = '/' → Akin rest other) :
    ∃ gap, cursor.rest = gap ++ (c :: used ++ rest) ∧ Akin (gap ++ (c :: used ++ rest)) (gap ++ (c :: used ++ other)) ∧
      ∀ place, (⟨place, gap ++ (c :: used ++ other)⟩ : Cursor).blanks = cursor.blanks ∧
        (⟨place, gap ++ (c :: used ++ other)⟩ : Cursor).skip.rest = c :: used ++ other := by
  have behind : cursor.rest.dropWhile Text.isBlank = cursor.remark ++ (c :: used ++ rest) := by
    rw [← whole]
    exact (comment_append _).symm
  have remark : comment (cursor.remark ++ (c :: used ++ rest)) = cursor.remark := by rw [← behind]; rfl
  have again : comment (cursor.remark ++ (c :: used ++ other)) = cursor.remark := by
    have front : cursor.remark ++ (c :: used ++ rest) =
        comment (cursor.remark ++ (c :: used ++ rest)) ++ (c :: used ++ rest) := by rw [remark]
    have same := comment_front front akin
    rwa [remark] at same
  have blank : ∀ d ∈ cursor.blanks, Text.isBlank d = true := fun d member => List.mem_takeWhile_imp member
  have solid : ∀ d ∈ (cursor.remark ++ (c :: used ++ other)).head?, Text.isBlank d = false := by
    intro d head
    have kept := List.head?_dropWhile_not Text.isBlank cursor.rest
    have same : (cursor.remark ++ (c :: used ++ rest)).head? = some d := by
      cases first : cursor.remark with
      | nil => simpa [first] using head
      | cons e more => simpa [first] using head
    rw [behind, same] at kept
    exact kept
  have taken : (cursor.remark ++ (c :: used ++ other)).takeWhile Text.isBlank = [] ∧
      (cursor.remark ++ (c :: used ++ other)).dropWhile Text.isBlank = cursor.remark ++ (c :: used ++ other) := by
    cases first : cursor.remark ++ (c :: used ++ other) with
    | nil => simp
    | cons d more =>
      have solid := solid d (by rw [first]; rfl)
      simp [solid]
  refine ⟨cursor.blanks ++ cursor.remark, ?_, akin_front ?_ akin, fun place => ⟨?_, ?_⟩⟩
  · rw [List.append_assoc, ← behind]
    exact List.takeWhile_append_dropWhile.symm
  · intro none
    have none := (List.append_eq_nil_iff.mp none).2
    rw [none, List.nil_append] at remark
    exact startsComment_of_comment remark
  · rw [blanks, List.append_assoc, List.takeWhile_append_of_pos blank, taken.1, List.append_nil]
  · have dropped : (cursor.blanks ++ cursor.remark ++ (c :: used ++ other)).dropWhile Text.isBlank =
        cursor.remark ++ (c :: used ++ other) := by
      rw [List.append_assoc, List.dropWhile_append_of_pos blank, taken.2]
    change List.drop (comment (List.dropWhile Text.isBlank _)).length (List.dropWhile Text.isBlank _) = _
    rw [dropped, again, List.drop_left]

/-- One step of reading is the same wherever the text stands, if what follows lets the token end
where it does. -/
theorem read_front {cursor : Cursor} {found : Token} (scanned : cursor.read.scan.outcome = .ok found)
    (proper : found ≠ .endOfText) :
    ∃ used, used ≠ [] ∧ cursor.rest = used ++ cursor.read.scan.after.rest ∧
      (used.getLast? = some '\n' → found = .newline) ∧
      ∀ other, (found.isWord = true → Akin cursor.read.scan.after.rest other) →
        Akin cursor.rest (used ++ other) ∧ ∀ place,
          (⟨place, used ++ other⟩ : Cursor).read.space = cursor.read.space ∧
          ∃ after, (⟨place, used ++ other⟩ : Cursor).read.scan = .ok found after other := by
  obtain ⟨c, inside, whole, last, further⟩ := token_front cursor.startsComment_skip scanned proper
  have slash : inside = [] → c = '/' → found.isWord = true := by
    rintro rfl rfl
    have alone : (token cursor.skip.place ('/' :: cursor.read.scan.after.rest)).outcome = .ok found := by
      rw [← scanned]
      exact congrArg (fun text => (token cursor.skip.place text).outcome) whole.symm
    exact isWord_of_slash alone
  obtain ⟨gap, all, _, _⟩ := skip_front whole fun _ _ => Akin.refl cursor.read.scan.after.rest
  have split : cursor.rest = gap ++ c :: inside ++ cursor.read.scan.after.rest := by
    rw [List.append_assoc]
    exact all
  refine ⟨gap ++ c :: inside, by simp, split, ?_, fun other akin => ?_⟩
  · intro newline
    exact last (by simpa [List.getLast?_append] using newline)
  · obtain ⟨_, again, near, same⟩ := skip_front whole fun none same => akin (slash none same)
    obtain rfl := List.append_cancel_right (all.symm.trans again)
    rw [List.append_assoc]
    refine ⟨all ▸ near, fun place => ?_⟩
    obtain ⟨blanks, rest⟩ := same place
    obtain ⟨after, scanned⟩ := further other akin (⟨place, gap ++ (c :: inside ++ other)⟩ : Cursor).skip.place
    exact ⟨congrArg String.ofList blanks, after, (congrArg (token _) rest).trans scanned⟩

end Cursor
end Hocon
