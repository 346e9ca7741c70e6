import Hocon.Proofs.Advancing

/-! Texts as tiles. Each call goes over blanks, perhaps a comment, and what it reads as a token or meets
as a fault; put together, these are the text, and they say where each call begins and ends. -/
namespace Hocon

namespace Position

/-- How far these characters lead: the newlines among them, and what follows the last of these. -/
def reached (before : List Char) : Position :=
  ⟨before.count '\n' + 1, (before.reverse.takeWhile (· != '\n')).length⟩

private theorem past_origin (before : List Char) : origin.past before = reached before := by
  obtain ⟨line, column⟩ := Position.mk.inj (ahead_past_origin before)
  exact congrArg₂ Position.mk line (Nat.succ.inj column)

private theorem ahead_reached (before : List Char) : (reached before).ahead = behind before := rfl

private theorem past_reached (before used : List Char) :
    (reached before).past used = reached (before ++ used) := by
  rw [← past_origin, ← past_append, past_origin]

end Position

/-- What one call goes over. -/
structure Tile where
  blanks : List Char
  remark : List Char
  span : List Char

namespace Tile

def skipped (tile : Tile) : List Char := tile.blanks ++ tile.remark

def text (tile : Tile) : List Char := tile.skipped ++ tile.span

/-- Behind these characters a call goes over the tile, the front of the text: it skips all blanks of the
line and a comment behind them, the last of the line, and knows the blanks, where its token begins and
where it ends. -/
structure Laid (tile : Tile) (before text : List Char) (reading : Reading) : Prop where
  whole : text = tile.text ++ reading.after.rest
  blank : ∀ c ∈ tile.blanks, Text.isBlank c = true
  remark : Remark tile.remark
  line : tile.remark ≠ [] → ∀ c ∈ (tile.span ++ reading.after.rest).head?, c = '\n'
  solid : ∀ c ∈ (tile.span ++ reading.after.rest).head?, Text.isBlank c = false
  code : startsComment (tile.span ++ reading.after.rest) = false
  space : reading.space = String.ofList tile.blanks
  start : reading.start = .behind (before ++ tile.skipped)
  place : reading.after.place = .reached (before ++ tile.text)
  token : ∀ token, reading.scan.outcome = .ok token → token.Written tile.span
  word : ∀ letters, reading.scan.outcome = .ok (.unquoted letters) → letters.toList = tile.span

end Tile

/-- Calls that go over the front of a text, tile by tile, behind these characters. -/
inductive Tiling : List Char → List Char → List Tile → List Reading → Prop where
  | done {before text : List Char} : Tiling before text [] []
  | call {before text : List Char} {tile : Tile} {tiles : List Tile} {reading : Reading} {readings : List Reading}
      (laid : tile.Laid before text reading)
      (further : Tiling (before ++ tile.text) reading.after.rest tiles readings) :
      Tiling before text (tile :: tiles) (reading :: readings)

namespace Cursor

variable {cursor : Cursor} {before : List Char}

private theorem read_lays (here : cursor.place = .reached before) :
    ∃ tile : Tile, tile.Laid before cursor.rest cursor.read := by
  obtain ⟨span, covers, start, split⟩ := cursor.read_covers
  have skipped : span ++ cursor.read.after.rest = cursor.skip.rest := split.symm
  -- the characters that write the token are those that the call went over
  have written {token : Token} (scanned : cursor.read.scan.outcome = .ok token) : token.Written span := by
    obtain ⟨same, again, written⟩ := written_of_read scanned
    obtain rfl : same = span := List.append_cancel_right (again.symm.trans split)
    exact written
  exact
    ⟨⟨cursor.blanks, cursor.remark, span⟩,
      { whole := covers.whole
        blank := fun c member => List.mem_takeWhile_imp member
        remark := comment_code _
        line := skipped ▸ skip_line
        solid := skipped ▸ cursor.skip_head
        code := skipped ▸ cursor.startsComment_skip
        space := rfl
        start := by rw [start, here, Position.past_reached, Position.ahead_reached]; rfl
        place := by rw [← Position.past_reached, ← here]; exact covers.place
        token := fun token => written
        word := fun letters scanned => (written scanned).of_unquoted.1 }⟩

/-- Call by call, tiles are laid. -/
private theorem tiling_of_readings (here : cursor.place = .reached before) (calls : Nat) :
    ∃ tiles, Tiling before cursor.rest tiles (cursor.readings calls) ∧
      cursor.rest = tiles.flatMap Tile.text ++ (cursor.afterCalls calls).rest ∧
      (cursor.afterCalls calls).place = .reached (before ++ tiles.flatMap Tile.text) := by
  induction calls generalizing cursor before with
  | zero => exact ⟨[], .done, rfl, by rw [List.flatMap_nil, List.append_nil]; exact here⟩
  | succ calls ih =>
    obtain ⟨tile, laid⟩ := read_lays here
    obtain ⟨tiles, further, rest, place⟩ := ih laid.place
    refine ⟨tile :: tiles, ?_, ?_, ?_⟩
    · rw [readings_succ]
      exact .call laid further
    · rw [afterCalls_succ, List.flatMap_cons, List.append_assoc, ← rest]
      exact laid.whole
    · rw [afterCalls_succ, List.flatMap_cons, ← List.append_assoc, place]

/-- Tokens and what is skipped tile a text. However many calls are made, and whatever faults they meet,
they have gone over the front of the text tile by tile, and stand in the line and the column behind it.
Up to the end the tiles are the whole text. -/
theorem readings_tile (text : String) :
    (∀ calls, ∃ tiles, Tiling [] text.toList tiles ((ofText text).readings calls) ∧
      text.toList = tiles.flatMap Tile.text ++ ((ofText text).afterCalls calls).rest ∧
      ((ofText text).afterCalls calls).place = .reached (tiles.flatMap Tile.text)) ∧
    ∃ tiles, Tiling [] text.toList tiles (ofText text).readAll ∧ text.toList = tiles.flatMap Tile.text := by
  have tiled (calls : Nat) := tiling_of_readings (show (ofText text).place = .reached [] from rfl) calls
  refine ⟨tiled, ?_⟩
  obtain ⟨last, _, ends⟩ := exists_last (ofText text)
  obtain ⟨tiles, tiling, whole, _⟩ := tiled (last + 1)
  have spent : ((ofText text).afterCalls (last + 1)).rest = [] := rest_of_isEnd ((ends last).mpr (Nat.le_refl last))
  rw [spent, List.append_nil] at whole
  exact ⟨tiles, readAll_eq_readings ends ▸ tiling, whole⟩

end Cursor
end Hocon
