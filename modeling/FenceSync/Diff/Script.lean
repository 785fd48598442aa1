import FenceSync.Text.Basic
/-!
# Edit scripts

A script leads from old lines to new ones by keeping, deleting and inserting runs of lines. `solve`
takes off what both have in common at the ends, and divides the rest where a shortest path through
the edit graph has its middle; the path is looked for from both corners at once.
-/
namespace FenceSync.Diff

/-- A step of a script, with the indices at which its run begins in the old and the new lines. -/
inductive Edit
  | keep (old new length : Nat)
  | delete (old new length : Nat)
  | insert (old new length : Nat)
deriving DecidableEq, Repr

/-- The lines of a text with their endings; a carriage return alone ends a line too. -/
def lines : Text → List Text
  | [] => []
  | '\r' :: '\n' :: t => ['\r', '\n'] :: lines t
  | '\r' :: t => ['\r'] :: lines t
  | '\n' :: t => ['\n'] :: lines t
  | [c] => [[c]]
  | c :: t => (lines t).modifyHead (c :: ·)

/-- The number of lines that two lists have in common at the beginning. -/
def commonStart : List Text → List Text → Nat
  | a :: s, b :: t => if a = b then commonStart s t + 1 else 0
  | _, _ => 0

/-- The number of lines that two lists have in common at the end. -/
def commonEnd (s t : List Text) : Nat := commonStart s.reverse t.reverse

theorem commonStart_le (s t : List Text) :
    commonStart s t ≤ s.length ∧ commonStart s t ≤ t.length := by
  fun_induction commonStart s t with
  | case1 => simp only [List.length_cons]; omega
  | case2 => simp
  | case3 => simp

/-- The points that one more edit reaches from those of the round before, on the diagonals
`round`, `round - 2`, down to `-round`: for each, where its run of common lines begins and ends.
Points are given by their number of old lines; on diagonal `k` they have `k` new lines fewer. -/
def frontier (old new : List Text) (round : Nat) (reached : List Nat) : List (Nat × Nat) :=
  (List.range (round + 1)).map fun (i : Nat) =>
    let x : Nat :=
      match reached[i]?, if i = 0 then none else reached[i - 1]? with
      | some right, some down => if right < down then down else right + 1
      | some right, none => right + 1
      | none, some down => down
      | none, none => 0
    let run :=
      if x + 2 * i < round then 0 else commonStart (old.drop x) (new.drop (x + 2 * i - round))
    (x, x + run)

/-- The point of a frontier on a diagonal. -/
def onDiagonal? (round : Nat) (reached : List Nat) (diagonal : Int) : Option Nat :=
  if (round : Int) < diagonal.natAbs then none
  else reached[((round - diagonal) / 2).toNat]?

/-- The first diagonal of a frontier on which it meets the other one, `size` old lines apart. -/
def meeting? (size : Nat) (delta : Int) (round : Nat) (points : List (Nat × Nat)) (otherRound : Nat)
    (other : List Nat) : Option (Int × Nat × Nat) :=
  (points.zipIdx.map fun ((start, stop), i) => (((round : Int) - 2 * i), start, stop)).find?
    fun (diagonal, _, stop) =>
      match onDiagonal? otherRound other (delta - diagonal) with
      | some x => size ≤ stop + x
      | none => false

/-- Looks for the middle of a shortest path, for `rounds` rounds from the given one on. -/
def middle? (old new : List Text) (round : Nat) (forward backward : List Nat) :
    Nat → Option (Nat × Nat)
  | 0 => none
  | rounds + 1 =>
    let delta : Int := (old.length : Int) - new.length
    let points := frontier old new round forward
    let met :=
      if delta % 2 = 0 || round = 0 then none
      else meeting? old.length delta round points (round - 1) backward
    match met with
    | some (diagonal, start, _) => some (start, ((start : Int) - diagonal).toNat)
    | none =>
      let forward := points.map (·.2)
      let points := frontier old.reverse new.reverse round backward
      let met :=
        if delta % 2 = 0 then meeting? old.length delta round points round forward else none
      match met with
      | some (diagonal, _, stop) =>
        some (old.length - stop, new.length - ((stop : Int) - diagonal).toNat)
      | none => middle? old new (round + 1) forward (points.map (·.2)) rounds

/-- One deletion and one insertion. -/
def replaceAll (oldStart newStart : Nat) (old new : List Text) : List Edit :=
  [.delete oldStart newStart old.length, .insert oldStart newStart new.length]

/-- Takes off what two lists have in common: the number of lines at the beginning, what lies
between, and the number of lines at the end. -/
def trim (old new : List Text) : Nat × List Text × List Text × Nat :=
  let start := commonStart old new
  let restOld := old.drop start
  let restNew := new.drop start
  let stop := commonEnd restOld restNew
  (start, restOld.take (restOld.length - stop), restNew.take (restNew.length - stop), stop)

theorem length_trim_le {old new midOld midNew : List Text} {start stop : Nat}
    (h : trim old new = (start, midOld, midNew, stop)) :
    midOld.length ≤ old.length ∧ midNew.length ≤ new.length := by
  simp only [trim, Prod.mk.injEq] at h
  obtain ⟨-, rfl, rfl, -⟩ := h
  simp only [List.length_take, List.length_drop]
  omega

def solve (oldStart newStart : Nat) (old new : List Text) : List Edit :=
  match _trimmed : trim old new with
  | (start, midOld, midNew, stop) =>
    let o := oldStart + start
    let n := newStart + start
    let between :=
      if midOld.isEmpty && midNew.isEmpty then []
      else if midNew.isEmpty then [.delete o n midOld.length]
      else if midOld.isEmpty then [.insert o n midNew.length]
      else
        match middle? midOld midNew 0 [] [] ((midOld.length + midNew.length + 1) / 2 + 1) with
        | none => replaceAll o n midOld midNew
        | some (x, y) =>
          if _progress : 0 < x + y ∧ x + y < midOld.length + midNew.length ∧
              x ≤ midOld.length ∧ y ≤ midNew.length then
            solve o n (midOld.take x) (midNew.take y) ++
              solve (o + x) (n + y) (midOld.drop x) (midNew.drop y)
          else replaceAll o n midOld midNew
    (if start = 0 then [] else [.keep oldStart newStart start]) ++ between ++
      if stop = 0 then [] else [.keep (o + midOld.length) (n + midNew.length) stop]
termination_by old.length + new.length
decreasing_by
  all_goals
    have := length_trim_le _trimmed
    simp only [List.length_take, List.length_drop]
    omega

end FenceSync.Diff
