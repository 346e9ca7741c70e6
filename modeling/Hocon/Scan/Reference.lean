import Hocon.Scan.Quoted

namespace Hocon.Scan

/-- The path up to the closing brace, read behind the opening one. A fault of the path
as a whole is reported where the reference starts. -/
def referencePath (start : Position) (builder : KeyPath.Builder) (place : Position)
    (text : List Char) : Scan KeyPath :=
  match text with
  | [] => .fail (.unclosedReference start) place []
  | c :: rest =>
    let next := place.after c
    if c = '\x7d' then
      match builder.path? with
      | some path => .ok path next rest
      | none => .fail (.emptyPathSegment start) next rest
    else if c = '"' then
      match (quoted place.ahead next rest).outcome with
      | .ok content =>
        referencePath start (builder.append (String.ofList content))
          (quoted place.ahead next rest).after.place (quoted place.ahead next rest).after.rest
      | .error fault => ⟨.error fault, (quoted place.ahead next rest).after⟩
    else if c = '.' then
      match builder.dot? with
      | some builder => referencePath start builder next rest
      | none => .fail (.emptyPathSegment start) next rest
    else if c = ' ' || c = '\t' then referencePath start builder next rest
    else if c = '\n' then .fail (.unclosedReference start) place (c :: rest)
    else if isForbidden c then .fail (.unexpectedInReference c next) next rest
    else referencePath start (builder.push c) next rest
termination_by text.length
decreasing_by
  · have shorter := quoted_rest_le place.ahead (place.after c) rest
    simp only [List.length_cons]
    omega
  all_goals simp

theorem referencePath_rest_le (start : Position) (builder : KeyPath.Builder) (place : Position)
    (text : List Char) :
    (referencePath start builder place text).after.rest.length ≤ text.length := by
  fun_induction referencePath start builder place text with
  | case4 builder place rest content next _ _ ih =>
    have shorter := quoted_rest_le place.ahead next rest
    simp only [List.length_cons]
    omega
  | case5 builder place rest fault next =>
    have shorter := quoted_rest_le place.ahead next rest
    simp only [List.length_cons]
    omega
  | case6 builder place rest longer _ next _ _ ih =>
    simp only [List.length_cons]
    omega
  | case8 builder place c rest next _ _ _ _ ih =>
    simp only [List.length_cons]
    omega
  | case11 builder place c rest next _ _ _ _ _ _ ih =>
    simp only [List.length_cons]
    omega
  | _ => simp

/-- A reference behind its dollar sign. -/
def reference (start place : Position) : List Char → Scan Token
  | '\x7b' :: '?' :: rest =>
    (referencePath start .empty ((place.after '\x7b').after '?') rest).map (.reference · true)
  | '\x7b' :: rest => (referencePath start .empty (place.after '\x7b') rest).map (.reference · false)
  | rest => .fail (.noBraceInReference start) place rest

theorem reference_rest_le (start place : Position) (text : List Char) :
    (reference start place text).after.rest.length ≤ text.length := by
  unfold reference
  split
  · rename_i rest
    have shorter := referencePath_rest_le start .empty ((place.after '\x7b').after '?') rest
    simp only [after_map, List.length_cons]
    omega
  · rename_i rest _
    have shorter := referencePath_rest_le start .empty (place.after '\x7b') rest
    simp only [after_map, List.length_cons]
    omega
  · simp

end Hocon.Scan
