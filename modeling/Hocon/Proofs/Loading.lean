import Hocon.Config
import Hocon.Proofs.Json.Reading
import Hocon.Proofs.Resolution.Settled

namespace Hocon

open Files (FilePath)
open Include (World)

/-- The ways to load a configuration. -/
inductive Load where
  | text (content : String)
  | file (path : FilePath)
  /-- With its includes looked for in a given directory. -/
  | fileIn (path base : FilePath)

def Load.run (world : World) : Load → Run Config
  | .text content => Config.ofText world content
  | .file path => Config.ofFile world path
  | .fileIn path base => Config.ofFileIn world path base

namespace Value

mutual

private theorem stream_of_resolved (value : Value) (resolved : value.containsPending = false) :
    ∃ written, value.stream = .ok written := by
  cases value with
  | null => exact ⟨_, rfl⟩
  | text content => exact ⟨_, rfl⟩
  | array items =>
    obtain ⟨written, done⟩ := streamItems_of_resolved true items resolved
    exact ⟨_, by rw [stream, done]; rfl⟩
  | object fields =>
    obtain ⟨written, done⟩ := streamFields_of_resolved true fields resolved
    exact ⟨_, by rw [stream, done]; rfl⟩
  | reference target => cases resolved
  | concat pieces => cases resolved

private theorem streamItems_of_resolved (first : Bool) (items : List Value)
    (resolved : itemsContainPending items = false) : ∃ written, streamItems first items = .ok written := by
  cases items with
  | nil => exact ⟨_, rfl⟩
  | cons value rest =>
    obtain ⟨own, others⟩ := Bool.or_eq_false_iff.mp resolved
    obtain ⟨written, done⟩ := stream_of_resolved value own
    obtain ⟨more, further⟩ := streamItems_of_resolved false rest others
    exact ⟨_, by rw [streamItems, done, further]; rfl⟩

private theorem streamFields_of_resolved (first : Bool) (fields : Object)
    (resolved : fieldsContainPending fields = false) :
    ∃ written, streamFields first fields = .ok written := by
  cases fields with
  | nil => exact ⟨_, rfl⟩
  | cons field rest =>
    obtain ⟨key, value⟩ := field
    obtain ⟨own, others⟩ := Bool.or_eq_false_iff.mp resolved
    obtain ⟨written, done⟩ := stream_of_resolved value own
    obtain ⟨more, further⟩ := streamFields_of_resolved false rest others
    exact ⟨_, by rw [streamFields, done, further]; rfl⟩

end

/-- A value that every form of output accepts: as JSON, as its text in both layouts, and
written straight. -/
structure Writable (value : Value) : Prop where
  json : ∃ json, value.toJson = .ok json
  compact : ∃ text, value.toJsonText = .ok text
  pretty : ∃ text, value.toJsonTextPretty = .ok text
  straight : ∃ text, value.serialize = .ok text

private theorem writable_of_resolved {value : Value} (resolved : value.containsPending = false) :
    value.Writable := by
  obtain ⟨json, done, _⟩ := toJson_of_resolved value resolved
  obtain ⟨written, streamed⟩ := stream_of_resolved value resolved
  refine ⟨⟨json, done⟩, ⟨json.compact, ?_⟩, ⟨json.pretty, ?_⟩, ⟨String.ofList written, ?_⟩⟩
  · rw [toJsonText, done]
    rfl
  · rw [toJsonTextPretty, done]
    rfl
  · rw [serialize, streamed]

end Value

namespace Load

variable {world : World} {session after : Session} {config : Config}

private theorem resolves_document {load : Load} (done : load.run world session = .ok config after) :
    ∃ (document : Document) (before : Session),
      document.root.resolve world.environment before = .ok config.value after := by
  have loaded : ∀ {path site}, Config.load world path site session = .ok config after →
      ∃ (document : Document) (before : Session),
        document.root.resolve world.environment before = .ok config.value after := by
    intro path site done
    unfold Config.load at done
    cases read : world.files.read path with
    | error cause => simp only [read] at done; cases done
    | ok text =>
      simp only [read] at done
      obtain ⟨_, _, _, done⟩ := Run.ok_of_bind done
      obtain ⟨document, _, _, done⟩ := Run.ok_of_bind done
      obtain ⟨_, before, _, done⟩ := Run.ok_of_bind done
      obtain ⟨value, _, resolved, done⟩ := Run.ok_of_bind done
      cases done
      exact ⟨document, before, resolved⟩
  cases load with
  | text content =>
    obtain ⟨document, before, _, done⟩ := Run.ok_of_bind done
    obtain ⟨value, _, resolved, done⟩ := Run.ok_of_bind done
    cases done
    exact ⟨document, before, resolved⟩
  | file path => exact loaded done
  | fileIn path base => exact loaded done

end Load

/-- Resolving answers only with values in which nothing is pending at any depth. A loaded
configuration is an object of this kind, and is accepted by every form of output. -/
theorem Config.loaded_is_writable (world : World) :
    (∀ (environment : Environment) (root : Root) (session : Session) (result : Value),
      ((root.resolve environment).outcome session).1 = .ok result →
        ∀ part ∈ result.parts, part.isPending = false) ∧
    ∀ (load : Load) (session : Session) (config : Config),
      ((load.run world).outcome session).1 = .ok config →
        (∃ fields, config.value = .object fields) ∧
        (∀ part ∈ config.value.parts, part.isPending = false) ∧ config.value.Writable := by
  constructor
  · intro environment root session result done
    exact Value.parts_of_resolved result (Root.resolved_of_resolve done)
  · intro load session config done
    obtain ⟨after, ran⟩ := Run.ok_of_outcome done
    obtain ⟨document, before, resolved⟩ := Load.resolves_document ran
    have settled := Root.resolved_of_resolve (Run.outcome_of_ok resolved)
    exact ⟨Root.object_of_resolve world.environment (Run.outcome_of_ok resolved),
      Value.parts_of_resolved config.value settled, Value.writable_of_resolved settled⟩

/-- A document reached by two ways, both of which refer to what may not be there. -/
def Include.World.diamond : World where
  files := ⟨.folder [
    ("main.conf", .file "include \"left.conf\"\ninclude \"right.conf\"\nall = $\x7blist\x7d [c]".toUTF8),
    ("left.conf", .file "include \"shared.conf\"\nlist += a".toUTF8),
    ("right.conf", .file "include \"shared.conf\"\nlist += b\nhome = $\x7b?HOME\x7d".toUTF8),
    ("shared.conf", .file "list = $\x7b?more\x7d [x]".toUTF8)], []⟩
  environment := fun _ => none
  accountHome := some "/root"

theorem Config.loaded_diamond_is_writable : ∃ config,
    (((Load.file ⟨"main.conf"⟩).run .diamond).outcome .start).1 = .ok config ∧
      (∃ fields, config.value = .object fields) ∧
      (∀ part ∈ config.value.parts, part.isPending = false) ∧ config.value.Writable := by
  have good : ((((Load.file ⟨"main.conf"⟩).run .diamond).outcome .start).1).isOk = true := by
    decide +kernel
  obtain ⟨config, done⟩ := ok_of_isOk good
  exact ⟨config, done, (loaded_is_writable .diamond).2 _ .start config done⟩

end Hocon
