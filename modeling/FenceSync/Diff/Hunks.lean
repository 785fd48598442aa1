import FenceSync.Diff.Compact
/-!
# Hunks

A difference is shown as hunks: runs of changes with up to `contextSize` unchanged lines around
them. Within a run the deleted lines come before the inserted ones.
-/
namespace FenceSync.Diff

inductive Mark
  | kept
  | deleted
  | inserted
deriving DecidableEq, Repr

structure Change where
  mark : Mark
  line : Text
deriving DecidableEq, Repr

inductive Segment
  | kept (lines : List Text)
  | changed (deleted inserted : List Text)
deriving DecidableEq, Repr

/-- The segments of a script, neighbours of one kind made one. -/
def segments (old new : List Text) : List Edit → List Segment
  | [] => []
  | .keep o _ l :: es =>
    match segments old new es with
    | .kept ls :: rest => .kept (slice old o l ++ ls) :: rest
    | rest => .kept (slice old o l) :: rest
  | .delete o _ l :: es =>
    match segments old new es with
    | .changed ds is :: rest => .changed (slice old o l ++ ds) is :: rest
    | rest => .changed (slice old o l) [] :: rest
  | .insert _ w l :: es =>
    match segments old new es with
    | .changed ds is :: rest => .changed ds (slice new w l ++ is) :: rest
    | rest => .changed [] (slice new w l) :: rest

def contextSize : Nat := 3

def lastLines (ls : List Text) : List Text := ls.drop (ls.length - contextSize)

def keptChanges (ls : List Text) : List Change := ls.map (⟨.kept, ·⟩)

/-- The hunks of segments that follow the lines `open_` of a hunk not closed yet. -/
def hunksFrom (open_ : List Change) : List Segment → List (List Change)
  | [] => [open_]
  | [.kept ls] => [open_ ++ keptChanges (ls.take contextSize)]
  | .kept ls :: rest =>
    if 2 * contextSize < ls.length then
      (open_ ++ keptChanges (ls.take contextSize)) :: hunksFrom (keptChanges (lastLines ls)) rest
    else hunksFrom (open_ ++ keptChanges ls) rest
  | .changed ds is :: rest =>
    hunksFrom (open_ ++ ds.map (⟨.deleted, ·⟩) ++ is.map (⟨.inserted, ·⟩)) rest

/-- The hunks between two lists of lines; none when they are the same. -/
def hunks (old new : List Text) : List (List Change) :=
  match segments old new (compact old new (solve 0 0 old new)) with
  | [] | [.kept _] => []
  | .kept ls :: rest => hunksFrom (keptChanges (lastLines ls)) rest
  | segments => hunksFrom [] segments

end FenceSync.Diff
