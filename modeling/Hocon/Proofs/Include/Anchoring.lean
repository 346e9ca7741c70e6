import Hocon.Proofs.Files.Searching
import Hocon.Proofs.Merging.Grouping
import Mathlib.Data.List.DropRight

/-! Patterns without wildcards. What is looked for is the path of the written one below the base directory,
whatever characters that directory's own path holds. The one file there is read, and no other but those that
it includes. Nothing is found from a base directory in which a doubled slash follows the dot it starts with,
and the search fails where a name with a wildcard in it lies in a directory that cannot be listed. -/
namespace Hocon

open Files (FilePath Pattern isIdle isWild)

namespace Files.FilePath

variable {base : FilePath} {written : String}

/-- A path without the slashes at its end. -/
def trimmed (path : FilePath) : String := String.ofList (path.text.toList.rdropWhile (· == '/'))

/-- What a pattern that is written below a directory is looked for as. -/
def below (base : FilePath) (written : String) : FilePath :=
  if base.text = "" then ⟨written⟩ else ⟨base.trimmed ++ "/" ++ written⟩

/-- A doubled slash follows the dots that a path starts with, and more of the path follows the slashes. -/
def stalls (base : FilePath) : Bool :=
  base.text != "" && !base.isAbsolute && Tree.blocked (FilePath.mk base.trimmed).segments

/-- A written pattern that names one file: no wildcards, no part that is empty or a dot, not in the home
directory. -/
structure Plain (written : String) : Prop where
  literal : written.toList.any isWild = false
  proper : ∀ part ∈ Text.splitAt '/' written, isIdle part = false
  away : written.toList.take 2 ≠ ['~', '/']

private theorem toList_trimmed (base : FilePath) :
    ∃ count, base.text.toList = base.trimmed.toList ++ List.replicate count '/' := by
  have slashes : base.text.toList.rtakeWhile (· == '/') =
      List.replicate (base.text.toList.rtakeWhile (· == '/')).length '/' := by
    refine List.eq_replicate_of_mem fun c member => ?_
    simpa using List.mem_rtakeWhile_imp member
  refine ⟨(base.text.toList.rtakeWhile (· == '/')).length, ?_⟩
  rw [← slashes, trimmed, String.toList_ofList, List.rdropWhile_append_rtakeWhile]

private theorem rdropWhile_bracketed (text : List Char) :
    (text.flatMap Pattern.bracketed).rdropWhile (· == '/') =
      (text.rdropWhile (· == '/')).flatMap Pattern.bracketed := by
  induction text using List.reverseRecOn with
  | nil => rfl
  | append_singleton front c ih =>
    rw [List.flatMap_append, List.flatMap_singleton]
    by_cases slash : c = '/'
    · subst slash
      rw [show Pattern.bracketed '/' = ['/'] from rfl, List.rdropWhile_concat_pos _ _ _ rfl, ih,
        List.rdropWhile_concat_pos _ _ _ rfl]
    · rw [List.rdropWhile_concat_neg _ _ _ (by simpa using slash), List.flatMap_append, List.flatMap_singleton,
        List.rdropWhile_eq_self_iff]
      intro some
      unfold Pattern.bracketed at some ⊢
      split <;> simp [slash]

private theorem escape_trimmed (base : FilePath) :
    String.ofList ((Pattern.escape base.text).toList.rdropWhile (· == '/')) = Pattern.escape base.trimmed := by
  rw [Pattern.toList_escape, rdropWhile_bracketed, ← String.ofList_toList (s := Pattern.escape base.trimmed),
    Pattern.toList_escape, trimmed, String.toList_ofList]

private theorem splitAt_slashes (count : Nat) (rest : String) :
    Text.splitAt '/' (String.ofList (List.replicate count '/') ++ rest) =
      List.replicate count "" ++ Text.splitAt '/' rest := by
  induction count with
  | zero => simp
  | succ count ih =>
    have text : String.ofList (List.replicate (count + 1) '/') ++ rest =
        "" ++ "/" ++ (String.ofList (List.replicate count '/') ++ rest) := by
      simp [← String.toList_inj, List.replicate_succ]
    rw [text, splitAt_append_slash, ih]
    rfl

private theorem isAbsolute_append_slash (front first second : String) :
    (FilePath.mk (front ++ "/" ++ first)).isAbsolute = (FilePath.mk (front ++ "/" ++ second)).isAbsolute := by
  simp only [FilePath.isAbsolute, String.toList_append]
  cases front.toList <;> rfl

private theorem segments_append_slash (front : String) :
    ∃ above, ∀ rest, (FilePath.mk (front ++ "/" ++ rest)).segments = above ++ Text.splitAt '/' rest := by
  let parts := Text.splitAt '/' front
  refine ⟨if (FilePath.mk (front ++ "/" ++ "")).isAbsolute then parts.tail else parts, fun rest => ?_⟩
  rw [segments_eq, isAbsolute_append_slash front rest "", splitAt_append_slash]
  split
  · exact List.tail_append_of_ne_nil (splitAt_ne_nil front)
  · rfl

namespace Plain

private theorem ends (plain : Plain written) :
    ∃ front final, Text.splitAt '/' written = front ++ [final] ∧ isIdle final = false := by
  obtain ⟨front, final, whole⟩ :=
    (List.eq_nil_or_concat (Text.splitAt '/' written)).resolve_left (splitAt_ne_nil written)
  rw [List.concat_eq_append] at whole
  exact ⟨front, final, whole, plain.proper final (whole ▸ List.mem_append_right front List.mem_cons_self)⟩

private theorem isAbsolute (plain : Plain written) : (FilePath.mk written).isAbsolute = false := by
  by_contra absolute
  obtain ⟨rest, parts⟩ := splitAt_of_isAbsolute (Bool.of_not_eq_false absolute)
  cases plain.proper "" (parts ▸ List.mem_cons_self)

private theorem escape (plain : Plain written) : Pattern.escape written = written := by
  have alone : ∀ c ∈ written.toList, Pattern.bracketed c = [c] := by
    intro c member
    have tame := List.any_eq_false.mp plain.literal c member
    rw [Pattern.bracketed, if_neg tame]
  rw [← String.toList_inj, Pattern.toList_escape, List.flatMap_congr alone, List.flatMap_singleton']

private theorem below_ne (plain : Plain written) : (base.below written).text ≠ "" := by
  unfold below
  split
  · rintro rfl
    cases plain.proper "" List.mem_cons_self
  · intro none
    have slash := congrArg ('/' ∈ ·.toList) none
    simp at slash

end Plain

/-- A base directory and what is joined to it, with the slashes between them counted. -/
private theorem join_of_plain (plain : Plain written) (given : base.text ≠ "") : ∃ count,
    base.join written = ⟨base.trimmed ++ "/" ++ (String.ofList (List.replicate count '/') ++ written)⟩ := by
  obtain ⟨count, whole⟩ := base.toList_trimmed
  have joined : base.join written =
      if base.text.toList.getLast? = some '/' then ⟨base.text ++ written⟩ else ⟨base.text ++ "/" ++ written⟩ := by
    simp [join, plain.isAbsolute, given]
  cases count with
  | zero =>
    have kept : base.text = base.trimmed := by rw [← String.toList_inj, whole, List.replicate_zero, List.append_nil]
    have last : base.text.toList.getLast? ≠ some '/' := by
      intro ends
      have same : base.text.toList.rdropWhile (· == '/') = base.text.toList := by
        rw [← String.toList_ofList (l := base.text.toList.rdropWhile _)]
        exact congrArg String.toList kept.symm
      obtain ⟨front, slash⟩ := List.getLast?_eq_some_iff.mp ends
      rw [List.rdropWhile_eq_self_iff] at same
      refine same (by simp [slash]) ?_
      simp [slash]
    refine ⟨0, ?_⟩
    rw [joined, if_neg last, kept]
    simp
  | succ count =>
    have last : base.text.toList.getLast? = some '/' := by
      rw [whole, List.replicate_succ', ← List.append_assoc, List.getLast?_concat]
    refine ⟨count, ?_⟩
    rw [joined, if_pos last, mk.injEq, ← String.toList_inj, String.toList_append, whole]
    simp [List.replicate_succ]

private theorem shortens_below (tree : Tree) (plain : Plain written) :
    tree.Shortens (base.below written) (base.join written) := by
  by_cases given : base.text = ""
  · have same : base.join written = base.below written := by
      rw [below, if_pos given, join, given]
      simp
    rw [same]
    exact ⟨rfl, Iff.rfl, Nat.le_refl _⟩
  · obtain ⟨count, joined⟩ := join_of_plain plain given
    obtain ⟨above, segments⟩ := segments_append_slash base.trimmed
    obtain ⟨front, final, whole, proper⟩ := plain.ends
    rw [joined, below, if_neg given]
    have named : final ≠ "" := by
      rintro rfl
      cases proper
    refine ⟨?_, ?_, ?_⟩
    · refine Tree.resolve_congr (by simp) (by simp) (isAbsolute_append_slash _ _ _) named
        (?_ : _ = (above ++ front) ++ [final]) (?_ : _ = (above ++ List.replicate count "" ++ front) ++ [final]) ?_
      · rw [segments, whole, List.append_assoc]
      · rw [segments, splitAt_slashes, whole]
        simp
      · have idle : (List.replicate count "").filter (!isIdle ·) = [] := by
          rw [List.filter_eq_nil_iff]
          intro segment member
          rw [List.eq_of_mem_replicate member]
          decide
        simp only [List.filter_append, idle, List.append_nil]
    · simp
    · simp only [String.utf8ByteSize_append]
      omega

private theorem getLast?_below (plain : Plain written) : (base.below written).segments.getLast? ≠ some "" := by
  obtain ⟨front, final, whole, proper⟩ := plain.ends
  have last : (base.below written).segments.getLast? = some final := by
    unfold below
    split
    · rw [segments_eq, plain.isAbsolute, if_neg Bool.false_ne_true, whole, List.getLast?_concat]
    · obtain ⟨above, segments⟩ := segments_append_slash base.trimmed
      rw [segments, whole, ← List.append_assoc, List.getLast?_concat]
  rw [last]
  rintro ⟨⟩
  cases proper

/-- Slashes at the end do not make a path absolute, unless there is nothing else. -/
private theorem isAbsolute_trimmed (given : base.text ≠ "") (rest : String) :
    (FilePath.mk (base.trimmed ++ "/" ++ rest)).isAbsolute = base.isAbsolute := by
  obtain ⟨count, whole⟩ := base.toList_trimmed
  simp only [isAbsolute, whole, String.toList_append]
  cases front : base.trimmed.toList with
  | nil =>
    cases count with
    | zero =>
      refine absurd ?_ given
      rw [← String.toList_inj, whole, front]
      rfl
    | succ count => rfl
  | cons c front => rfl

private theorem blocked_append {segments names : List String} (proper : ∀ name ∈ names, isIdle name = false) :
    Tree.blocked (segments ++ names) = Tree.blocked segments := by
  induction segments with
  | nil =>
    cases names with
    | nil => rfl
    | cons name names =>
      have proper := proper name List.mem_cons_self
      simp only [isIdle, Bool.or_eq_false_iff, decide_eq_false_iff_not] at proper
      simp [Tree.blocked, proper]
  | cons segment rest ih =>
    by_cases dot : segment = "."
    · subst dot
      exact ih
    · simp [Tree.blocked]

/-- The search is stuck just where the base directory has the dot and the slashes. -/
private theorem stuck_below (plain : Plain written) : Tree.stuck (base.below written) = base.stalls := by
  unfold Tree.stuck stalls below
  by_cases given : base.text = ""
  · have relative := plain.isAbsolute
    have first : Tree.blocked (FilePath.mk written).segments = false := by
      rw [segments_eq, relative]
      exact @blocked_append [] _ plain.proper
    simp [given, first]
  · rw [if_neg given, isAbsolute_trimmed given]
    cases absolute : base.isAbsolute with
    | true => simp
    | false =>
      have relative : (FilePath.mk base.trimmed).isAbsolute = false := by
        obtain ⟨count, whole⟩ := base.toList_trimmed
        by_contra slash
        obtain ⟨rest, leading⟩ := isAbsolute_iff.mp (Bool.of_not_eq_false slash)
        have begins : base.isAbsolute = true := isAbsolute_iff.mpr ⟨_, by rw [whole, leading]; rfl⟩
        rw [absolute] at begins
        cases begins
      rw [segments_eq, isAbsolute_trimmed given, absolute, segments_eq, relative]
      simp only [Bool.false_eq_true, if_false, splitAt_append_slash, blocked_append plain.proper]
      simp [given]

end Files.FilePath

namespace Include

open Files.FilePath (Plain)

variable {world : World} {site : Site} {written : String}

private theorem anchor_of_plain (plain : Plain written) :
    site.anchor world written = .ok ⟨Pattern.escape (site.base.below written).text⟩ := by
  rw [Site.anchor, if_neg plain.away, plain.isAbsolute, FilePath.below, Bool.false_or]
  by_cases none : site.base.text = ""
  · simp [none, plain.escape]
  · have text : Pattern.escape (site.base.trimmed ++ "/" ++ written) =
        Pattern.escape site.base.trimmed ++ "/" ++ written := by
      rw [Pattern.escape_append, Pattern.escape_append, plain.escape]
      rfl
    simp only [none, decide_false, if_false, Bool.false_eq_true]
    rw [text, ← Files.FilePath.escape_trimmed]
    rfl

/-- The file that a plain pattern is looked for as. -/
def Site.target (site : Site) (written : String) : FilePath := Files.Tree.spelled (site.base.below written)

/-- The walk along the names of what is looked for. -/
def Site.walk (world : World) (site : Site) (written : String) : Except Files.SearchFault (Option Files.Waypoint) :=
  let sought := site.base.below written
  world.files.walk (world.files.waypoint (Files.Tree.start sought)) sought.segments

/-- What stops the walk is a directory that cannot be listed, where a wildcard of the base directory's path
is to be found. -/
def Site.Barred (world : World) (site : Site) (written : String) (fault : Files.SearchFault) : Prop :=
  (Site.refusal written fault).code? = some 307 ∧
    let sought := site.base.below written
    ∃ folder cause, fault = .unlisted folder cause ∧
      world.files.Bars (Files.Tree.start sought) sought.segments folder cause

private theorem Site.barred_of_walk {fault : Files.SearchFault}
    (failed : site.walk world written = .error fault) :
    site.Barred world written fault := by
  obtain ⟨folder, cause, rfl, bars⟩ := Files.Tree.bars_of_walk failed
  exact ⟨rfl, folder, cause, rfl, bars⟩

private theorem Site.not_barred_of_walk {found : Option Files.Waypoint}
    (free : Files.Tree.stuck (site.base.below written) = false)
    (file : world.files.isFile (site.target written) = true) (walked : site.walk world written = .ok found)
    (fault : Files.SearchFault) : ¬ site.Barred world written fault := by
  rintro ⟨_, folder, cause, _, bars⟩
  exact Files.Tree.not_bars_of_walk free file walked bars

/-- A plain pattern means its one file or none, unless the walk to it is stopped. -/
private theorem expand_of_plain (distinct : world.files.root.Distinct) (plain : Plain written) :
    site.expand world written =
    match site.walk world written with
    | .ok _ =>
      .ok (if !site.base.stalls && world.files.isFile (site.target written) then [site.target written] else [])
    | .error fault => .error (Site.refusal written fault) := by
  rw [Site.expand, anchor_of_plain plain]
  change (world.files.search _).mapError (Site.refusal written) = _
  rw [Files.Tree.search_escape distinct (Files.FilePath.getLast?_below plain), Files.FilePath.stuck_below plain]
  change (match site.walk world written with | .ok _ => _ | .error fault => _ : Except _ _).mapError _ = _
  cases site.walk world written <;> rfl

private theorem expand_of_stalls (distinct : world.files.root.Distinct) (plain : Plain written)
    (stalls : site.base.stalls = true) : site.expand world written = .ok [] := by
  have walked : site.walk world written = .ok none :=
    Files.Tree.walk_of_stuck ((Files.FilePath.stuck_below plain).trans stalls)
  rw [expand_of_plain distinct plain, walked, stalls]
  rfl

/-- A note of what is looked for. -/
def Site.noted (site : Site) (written : String) : Run Unit :=
  Run.note (.searched (Pattern.escape (site.base.below written).text))

/-- No file is read, which is a fault where one is required. -/
def Site.unanswered (site : Site) (directive : Directive) : Run Root := do
  site.noted directive.pattern
  if directive.required then throw (.noMatch directive.pattern)
  else
    Run.note (.unmatched directive.pattern)
    return .empty

/-- One file is read, and no other but those that it includes. -/
def Site.answeredBy (world : World) (site : Site) (directive : Directive) (file : FilePath) : Run Root := do
  site.noted directive.pattern
  Run.note (.loading file.text)
  let document ← load world site file
  return document.root

/-- No file is read, since the search fails. -/
def Site.refused (site : Site) (directive : Directive) (fault : Files.SearchFault) : Run Root := do
  site.noted directive.pattern
  throw (refusal directive.pattern fault)

variable {directive : Directive} {file : FilePath}

private theorem seek_of_plain (plain : Plain written) :
    site.seek world written = (site.noted written >>= fun _ => Run.ofExcept (site.expand world written)) :=
  Site.seek_eq (anchor_of_plain plain)

private theorem answer_of_none (plain : Plain directive.pattern)
    (none : site.expand world directive.pattern = .ok []) :
    answer world site directive = site.unanswered directive := by
  rw [answer_eq, answerBy, seek_of_plain plain, none]
  rfl

private theorem answer_of_fault (plain : Plain directive.pattern) {fault : Files.SearchFault}
    (failed : site.expand world directive.pattern = .error (Site.refusal directive.pattern fault)) :
    answer world site directive = site.refused directive fault := by
  rw [answer_eq, answerBy, seek_of_plain plain, failed]
  rfl

private theorem gather_one (file : FilePath) : gather (load world site) ⟨[], []⟩ file =
    (Run.note (.loading file.text) >>= fun _ => load world site file) := by
  have alone : (load world site file >>= fun document =>
      return ⟨Object.merge [] document.fields, [] ++ document.references⟩) = load world site file := by
    funext session
    change EStateM.bind _ _ session = _
    cases ran : load world site file session with
    | error fault after => simp only [EStateM.bind, ran]
    | ok document after =>
      have distinct := keysDistinct_of_loads (fun file _ _ _ => answer_distinct world (site.inside world.files file))
        ⟨document, session, after, ran, rfl⟩
      have same := Object.merge_nil_left (Value.keysDistinct_object distinct).1
      simp only [EStateM.bind, ran, same, List.nil_append]
      rfl
  rw [gather, alone]

private theorem answer_of_one (plain : Plain directive.pattern)
    (one : site.expand world directive.pattern = .ok [file]) :
    answer world site directive = site.answeredBy world directive file := by
  have gathered : [file].foldlM (gather (load world site)) ⟨[], []⟩ =
      (Run.note (.loading file.text) >>= fun _ => load world site file) := by
    rw [List.foldlM_cons, gather_one]
    exact bind_pure _
  rw [answer_eq, answerBy, seek_of_plain plain, one, Site.answeredBy, bind_assoc]
  refine congrArg _ (funext fun _ => ?_)
  change ([file].foldlM (gather (load world site)) ⟨[], []⟩ >>= fun merged => return merged.root) = _
  rw [gathered]
  exact bind_assoc _ _ _

/-- A plain pattern below a base directory means the file of that name, exactly as the directory's own
path is written: one file is read, by a path that leads to it, if it is there, and none otherwise. Two
base directories are exceptions. From one whose path has a doubled slash behind the dots that it starts
with, and goes on behind it, nothing is read whatever is there. And a wildcard in the path makes the
search list the directory that holds the name: if the file is there, the include fails just where such a
directory cannot be listed. -/
theorem plain_include_reads_one (world : World) (site : Site) (written : String)
    (distinct : world.files.root.Distinct) (plain : Plain written) :
    let file := site.base.join written
    (Fault.noMatch written).code? = some 303 ∧
      if site.base.stalls then
        ∀ required, answer world site ⟨written, required⟩ = site.unanswered ⟨written, required⟩
      else
        ∃ path, world.files.resolve path = world.files.resolve file ∧
          (world.files.isFile file = true → world.files.isFile path = true ∧
            world.files.read path = world.files.read file ∧ world.files.identity path = world.files.identity file) ∧
          (world.files.isFile path = true → world.files.isFile file = true ∨ 4096 ≤ file.text.utf8ByteSize) ∧
          match site.walk world written with
          | .ok _ => (world.files.isFile path = true → ∀ fault, ¬ site.Barred world written fault) ∧
              ∀ required, answer world site ⟨written, required⟩ =
                if world.files.isFile path then site.answeredBy world ⟨written, required⟩ path
                else site.unanswered ⟨written, required⟩
          | .error fault => site.Barred world written fault ∧
              ∀ required, answer world site ⟨written, required⟩ = site.refused ⟨written, required⟩ fault := by
  intro file
  have expanded : site.expand world written = _ := expand_of_plain distinct plain
  refine ⟨rfl, ?_⟩
  split
  case isTrue stalls =>
    exact fun required => answer_of_none plain (expand_of_stalls distinct plain stalls)
  case isFalse free =>
    rw [Bool.not_eq_true] at free
    have clear : Files.Tree.stuck (site.base.below written) = false :=
      (Files.FilePath.stuck_below plain).trans free
    have shortens : world.files.Shortens (site.target written) file :=
      (Files.Tree.shortens_spelled plain.below_ne (Files.FilePath.getLast?_below plain) clear).trans
        (Files.FilePath.shortens_below world.files plain)
    refine ⟨site.target written, shortens.resolve, shortens.isFile, shortens.isFile_of_lt, ?_⟩
    cases walked : site.walk world written with
    | error fault =>
      rw [walked] at expanded
      exact ⟨Site.barred_of_walk walked, fun required => answer_of_fault plain expanded⟩
    | ok found =>
      rw [walked, free] at expanded
      refine ⟨fun there => Site.not_barred_of_walk clear there walked, fun required => ?_⟩
      split
      case isTrue there =>
        rw [there] at expanded
        exact answer_of_one plain expanded
      case isFalse missing =>
        rw [Bool.not_eq_true] at missing
        rw [missing] at expanded
        exact answer_of_none plain expanded

/-- The file is there, but the directory that holds the one with a pattern for its name tells nothing. -/
example :
    let inner : Files.Node := .folder [("a.conf", .file "a = 1".toUTF8)]
    let world : World := ⟨⟨.folder [("p", .directory [("[d]", inner)] ⟨false, true⟩)], []⟩, fun _ => none, none⟩
    world.files.isFile ⟨"p/[d]/a.conf"⟩ = true ∧
      (Site.ofFolder ⟨"p/[d]"⟩).walk world "a.conf" = .error (.unlisted ⟨"p"⟩ .denied) := by
  decide

/-- Two directories, the name of one of which is a pattern that the name of the other fits. -/
def World.patterned : World where
  files := ((Files.Tree.mk (.folder []) []).insert ["d*[1]", "a.conf"] (some "here = 1".toUTF8)).insert
    ["dx1", "a.conf"] (some "there = 1".toUTF8)
  environment := fun _ => none
  accountHome := some "/root"

private theorem plain_name : Plain "a.conf" := ⟨by decide, by decide, by decide⟩

/-- What is included from the first of them is the file that it holds itself. -/
theorem patterned_base_reads_one :
    World.patterned.files.root.Distinct ∧ Plain "a.conf" ∧
      ∃ path, World.patterned.files.identity path = [.root, .name "d*[1]", .name "a.conf"] ∧
        ∀ required, answer .patterned (.ofFolder ⟨"d*[1]"⟩) ⟨"a.conf", required⟩ =
          (Site.ofFolder ⟨"d*[1]"⟩).answeredBy .patterned ⟨"a.conf", required⟩ path := by
  have distinct : World.patterned.files.root.Distinct :=
    Files.Tree.distinct_insert (Files.Tree.distinct_insert Files.Node.distinct_empty _ _) _ _
  obtain ⟨_, one⟩ := plain_include_reads_one .patterned (.ofFolder ⟨"d*[1]"⟩) "a.conf" distinct plain_name
  rw [if_neg (by decide)] at one
  obtain ⟨path, _, reads, _, _, answered⟩ := one
  obtain ⟨there, _, same⟩ := reads (by decide)
  refine ⟨distinct, plain_name, path, same.trans (by decide), fun required => ?_⟩
  rw [answered, if_pos there]

/-- A file that includes itself. -/
def World.loop : World where
  files := (Files.Tree.mk (.folder []) []).insert ["x", "a.conf"] (some "include \"a.conf\"".toUTF8)
  environment := fun _ => none
  accountHome := some "/root"

/-- That file is not found again if it is itself read by a path with a doubled slash behind a dot. -/
theorem doubled_slash_not_always_searched :
    ¬ ∀ (world : World) (site : Site) (written : String), world.files.root.Distinct → Plain written →
      world.files.isFile (site.base.join written) = true →
      ∃ path, world.files.resolve path = world.files.resolve (site.base.join written) ∧
        ∀ required, answer world site ⟨written, required⟩ = site.answeredBy world ⟨written, required⟩ path := by
  intro claim
  let site := Site.ofFile World.loop.files ⟨".//x/a.conf"⟩
  have distinct : World.loop.files.root.Distinct := Files.Tree.distinct_insert Files.Node.distinct_empty _ _
  have there : World.loop.files.isFile (site.base.join "a.conf") = true := by decide
  obtain ⟨path, leads, answered⟩ := claim .loop site "a.conf" distinct plain_name there
  have none : site.expand .loop "a.conf" = .ok [] := expand_of_stalls distinct plain_name (by decide)
  have known : World.loop.files.identity path ∈ site.chain := by
    rw [Files.Tree.identity_of_resolve leads there]
    decide
  have cycle : site.answeredBy .loop ⟨"a.conf", true⟩ path = site.unanswered ⟨"a.conf", true⟩ :=
    (answered true).symm.trans (answer_of_none plain_name none)
  rw [Site.answeredBy, load_eq, loadBy_known known] at cycle
  cases congrFun cycle .start

end Include
end Hocon
