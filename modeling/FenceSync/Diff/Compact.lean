import FenceSync.Diff.Script
/-!
# Compacting scripts

Insertions are moved through kept runs as far up and then as far down as the lines allow, and runs
of one kind that meet become one; insertions and deletions that meet change places. What is kept
around a moved insertion moves to its other side.
-/
namespace FenceSync.Diff

namespace Edit

def length : Edit → Nat
  | .keep _ _ n | .delete _ _ n | .insert _ _ n => n

/-- Moves an edit up by `n` lines. -/
def moveUp (n : Nat) : Edit → Edit
  | .keep o w l => .keep (o - n) (w - n) l
  | .delete o w l => .delete (o - n) (w - n) l
  | .insert o w l => .insert (o - n) (w - n) l

/-- Moves an edit down by `n` lines. -/
def moveDown (n : Nat) : Edit → Edit
  | .keep o w l => .keep (o + n) (w + n) l
  | .delete o w l => .delete (o + n) (w + n) l
  | .insert o w l => .insert (o + n) (w + n) l

/-- Takes in `n` more lines at the end. -/
def growEnd (n : Nat) : Edit → Edit
  | .keep o w l => .keep o w (l + n)
  | .delete o w l => .delete o w (l + n)
  | .insert o w l => .insert o w (l + n)

def isDelete : Edit → Bool
  | .delete _ _ _ => true
  | _ => false

def isInsert : Edit → Bool
  | .insert _ _ _ => true
  | _ => false

end Edit

/-- The number of edits and of their lines. -/
def weight : List Edit → Nat
  | [] => 0
  | e :: es => e.length + 1 + weight es

theorem weight_cons (e : Edit) (es : List Edit) : weight (e :: es) = e.length + 1 + weight es :=
  rfl

def slice (ls : List Text) (start length : Nat) : List Text := (ls.drop start).take length

/-- An edit of a script with those before it, the nearest first, and those after it. -/
structure Cursor where
  before : List Edit
  this : Edit
  after : List Edit

variable (old new : List Text)

/-- The lines an edit inserts; a deletion has none. -/
def insertedBy : Edit → List Text
  | .insert _ w l => slice new w l
  | _ => []

/-- Moves the edit of a cursor up. -/
def shiftUp : List Edit → Edit → List Edit → Cursor
  | [], this, after => ⟨[], this, after⟩
  | .keep o w l :: before, this, after =>
    let n := commonEnd (slice old o l) (insertedBy new this)
    if _moves : 0 < n ∧ n ≤ l then
      let after := match after with
        | .keep o' w' l' :: rest => .keep (o' - n) (w' - n) (l' + n) :: rest
        | rest =>
          match this with
          | .insert _ w' l' => .keep (o + l - n) (w' + l' - n) n :: rest
          | _ => rest
      if n = l then shiftUp before (this.moveUp n) after
      else shiftUp (.keep o w (l - n) :: before) (this.moveUp n) after
    else if l = 0 then shiftUp before this after
    else ⟨.keep o w l :: before, this, after⟩
  | .insert o w l :: before, this, after =>
    if this.isInsert then shiftUp before (.insert o w (l + this.length)) after
    else shiftUp before this (.insert o w l :: after)
  | .delete o w l :: before, this, after =>
    if this.isDelete then shiftUp before (.delete o w (l + this.length)) after
    else shiftUp before this (.delete o w l :: after)
termination_by before => weight before
decreasing_by
  all_goals
    simp only [weight_cons, Edit.length]
    omega

/-- Moves the edit of a cursor down. -/
def shiftDown (before : List Edit) (this : Edit) : List Edit → Cursor
  | [] => ⟨before, this, []⟩
  | .keep o w l :: after =>
    let n := commonStart (slice old o l) (insertedBy new this)
    if _moves : 0 < n ∧ n ≤ l then
      let before := match before with
        | .keep o' w' l' :: rest => .keep o' w' (l' + n) :: rest
        | rest =>
          match this with
          | .insert _ w' _ => .keep o w' n :: rest
          | _ => rest
      if n = l then shiftDown before (this.moveDown n) after
      else shiftDown before (this.moveDown n) (.keep (o + n) (w + n) (l - n) :: after)
    else if l = 0 then shiftDown before this after
    else ⟨before, this, .keep o w l :: after⟩
  | .insert o w l :: after =>
    if this.isInsert then shiftDown before (this.growEnd l) after
    else shiftDown (.insert o w l :: before) this after
  | .delete o w l :: after =>
    if this.isDelete then shiftDown before (this.growEnd l) after
    else shiftDown (.delete o w l :: before) this after
termination_by after => weight after
decreasing_by
  all_goals
    simp only [weight_cons, Edit.length]
    omega

/-- Moves every edit of a kind, from the first to the last. An edit that meets another one of its
kind on its way up stays with it, and the pass goes on from there. -/
def compactKind (isKind : Edit → Bool) (before : List Edit) : List Edit → List Edit
  | [] => before.reverse
  | e :: after =>
    if isKind e then
      let up := shiftUp old new before e after
      let down := shiftDown old new up.before up.this up.after
      let kinds := before.countP isKind + (e :: after).countP isKind
      let kindsLeft := (down.this :: down.before).countP isKind + down.after.countP isKind
      if _progress : kindsLeft < kinds ∨ kindsLeft = kinds ∧ weight down.after < weight (e :: after)
      then compactKind isKind (down.this :: down.before) down.after
      else down.before.reverse ++ down.this :: down.after
    else compactKind isKind (e :: before) after
termination_by es => (before.countP isKind + es.countP isKind, weight es)
decreasing_by
  · rcases _progress with h | ⟨h, hw⟩
    · exact Prod.Lex.left _ _ h
    · rw [show _ + _ = _ from h]
      exact Prod.Lex.right _ hw
  · next h =>
    have hk : (e :: before).countP isKind + after.countP isKind =
        before.countP isKind + (e :: after).countP isKind := by
      simp [h]
    rw [hk]
    refine Prod.Lex.right _ ?_
    simp only [weight_cons]
    omega

def compact (es : List Edit) : List Edit :=
  compactKind old new Edit.isInsert [] (compactKind old new Edit.isDelete [] es)

end FenceSync.Diff
