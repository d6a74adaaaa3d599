import Slicing.Digraph.DepthFirst
import Slicing.Flow.Graph

/-!
# Post-dominance

A position *post-dominates* another from which the exit is reached if every way
from there to the exit passes it. The post-dominators of a position lie on a
chain, so each position but the exit has an *immediate* one, which all its other
strict post-dominators post-dominate: the positions form a tree with the exit as
its root.

The tree is grown in rounds. A position is given a parent as soon as some of those
that follow it have their places in the tree: the latest position on all chains from
these to the root. The positions are gone through in the reverse postorder of a
depth-first exploration from the exit against the steps, so that in the first round
one of them always has. Later rounds may find that a chain passes by a parent, which
then is replaced by one nearer to the exit. A round that changes nothing is the last.

A tree carries the proof that parents are nearer to the exit than their children,
in the numbers of that order. The ways up the tree end for that reason, and the
rounds since a parent is only replaced by a nearer one.
-/

namespace Slicing

/-- Positions from `0` up to a size, steps between them, and an exit. -/
structure FlowSteps where
  size : Nat
  exit : Nat
  steps : List (Nat × Nat)

/-- Positions from `0` up to a size, the ones that follow each, the ones that each
    follows, and an exit. -/
structure FlowAdjacency where
  size : Nat
  exit : Nat
  following : Array (List Nat)
  preceding : Array (List Nat)

namespace FlowSteps

/-- The positions. -/
def positions (f : FlowSteps) : List Nat := List.range f.size

/-- The positions that follow a position, each once. -/
def targets (f : FlowSteps) (v : Nat) : List Nat := FlowGraph.stepTargets f.steps v

/-- The positions that a position follows, each once. -/
def sources (f : FlowSteps) (v : Nat) : List Nat := FlowGraph.stepSources f.steps v

/-- The steps by position. -/
def adjacency (f : FlowSteps) : FlowAdjacency where
  size := f.size
  exit := f.exit
  following := (f.positions.map f.targets).toArray
  preceding := (f.positions.map f.sources).toArray

end FlowSteps

namespace FlowAdjacency

/-- The positions that follow a position. -/
def targets (a : FlowAdjacency) (v : Nat) : List Nat := a.following.getD v []

/-- The positions that a position follows. -/
def sources (a : FlowAdjacency) (v : Nat) : List Nat := a.preceding.getD v []

/-- The positions from which the exit is reached, in an order that starts with the exit and
    lists each other one behind some position that follows it. -/
def exitOrder (a : FlowAdjacency) : List Nat :=
  Digraph.reversePostorder ⟨List.range a.size, a.sources⟩ a.exit

end FlowAdjacency

/-- A tree of positions, or a part of one. -/
structure PostDominatorTree where
  root : Nat
  /-- The number of each position, by which the root comes first. -/
  numbers : Array Nat
  /-- The parent of each position, if it has one. -/
  parents : Array (Option Nat)
  /-- Parents come before their children. -/
  parent_lt : ∀ v p, parents.getD v none = some p →
    numbers.getD p numbers.size < numbers.getD v numbers.size

namespace PostDominatorTree

/-- The number of a position. -/
def number (t : PostDominatorTree) (v : Nat) : Nat := t.numbers.getD v t.numbers.size

/-- The parent of a position: in the tree of all positions from which the exit is reached,
    its immediate post-dominator. -/
def parent? (t : PostDominatorTree) (v : Nat) : Option Nat := t.parents.getD v none

/-- Ways up in the tree lead to smaller numbers. -/
theorem number_parent_lt {t : PostDominatorTree} {v p : Nat} (h : t.parent? v = some p) :
    t.number p < t.number v := t.parent_lt v p h

/-- A position has its place in the tree. -/
def isPlaced (t : PostDominatorTree) (v : Nat) : Bool := v == t.root || (t.parent? v).isSome

/-- The latest position that is on the way up to the root from both of two. -/
def meet (t : PostDominatorTree) (a b : Nat) : Nat :=
  if a = b then a
  else if t.number b < t.number a then
    match _h : t.parent? a with
    | some p => t.meet p b
    | none => t.root
  else
    match _h : t.parent? b with
    | some p => t.meet a p
    | none => t.root
termination_by t.number a + t.number b
decreasing_by
  · have := number_parent_lt _h
    omega
  · have := number_parent_lt _h
    omega

/-- A position post-dominates another: it is the other one or above it. -/
def postDominates (t : PostDominatorTree) (a b : Nat) : Bool :=
  if b = a then true
  else
    match _h : t.parent? b with
    | some p => t.postDominates a p
    | none => false
termination_by t.number b
decreasing_by exact number_parent_lt _h

/-! ## Growing a tree -/

/-- The parent that the positions behind one ask for: what is on the way up from all of them
    that have their places. -/
def proposal? (t : PostDominatorTree) (targets : List Nat) : Option Nat :=
  match targets.filter t.isPlaced with
  | [] => none
  | s :: others => some (others.foldl (fun p s => t.meet s p) s)

/-- The number of the parent of a position, or its own while it has none. -/
def height (t : PostDominatorTree) (v : Nat) : Nat := t.number ((t.parent? v).getD v)

/-- A position is no higher than its number, as numbers fall on the way up. -/
theorem height_le_number (t : PostDominatorTree) (v : Nat) : t.height v ≤ t.number v := by
  unfold height
  cases h : t.parent? v with
  | none => exact Nat.le_refl _
  | some p => exact Nat.le_of_lt (number_parent_lt h)

/-- Gives a position a parent, if it is nearer to the root than the one so far. -/
def raise (t : PostDominatorTree) (v p : Nat) : PostDominatorTree :=
  if h : t.number p < t.height v then
    { t with
      parents := t.parents.setIfInBounds v (some p)
      parent_lt := by
        intro w q hq
        rw [Array.getD_eq_getD_getElem?, Array.getElem?_setIfInBounds] at hq
        split at hq
        · rename_i heq
          split at hq
          · obtain rfl : p = q := by simpa using hq
            exact heq ▸ Nat.lt_of_lt_of_le h (t.height_le_number v)
          · cases hq
        · exact t.parent_lt w q (by rwa [Array.getD_eq_getD_getElem?]) }
  else t

/-- Gives a position the parent that those behind it ask for. -/
def place (a : FlowAdjacency) (t : PostDominatorTree) (v : Nat) : PostDominatorTree :=
  match t.proposal? (a.targets v) with
  | some p => t.raise v p
  | none => t

/-- Goes through some positions once. -/
def sweep (a : FlowAdjacency) (order : List Nat) (t : PostDominatorTree) : PostDominatorTree :=
  order.foldl (place a) t

/-- The sum of the numbers of the parents of the positions below a bound. -/
def weightBelow (t : PostDominatorTree) : Nat → Nat
  | 0 => 0
  | bound + 1 => t.weightBelow bound + t.height bound

/-- The sum of the numbers of the parents. -/
def weight (t : PostDominatorTree) : Nat := t.weightBelow t.parents.size

theorem weightBelow_le {t t' : PostDominatorTree} (hle : ∀ w, t'.height w ≤ t.height w) (bound : Nat) :
    t'.weightBelow bound ≤ t.weightBelow bound := by
  induction bound with
  | zero => exact Nat.le_refl _
  | succ bound ih => exact Nat.add_le_add ih (hle bound)

/-- The weight falls when one position rises and none sinks. -/
theorem weightBelow_lt {t t' : PostDominatorTree} {bound v : Nat} (hv : v < bound)
    (hlt : t'.height v < t.height v) (hle : ∀ w, t'.height w ≤ t.height w) :
    t'.weightBelow bound < t.weightBelow bound := by
  induction bound with
  | zero => omega
  | succ bound ih =>
    by_cases heq : v = bound
    · subst heq
      exact Nat.add_lt_add_of_le_of_lt (weightBelow_le hle v) hlt
    · exact Nat.add_lt_add_of_lt_of_le (ih (by omega)) (hle bound)

/-- Raising a position leaves the tree as it is, or makes it lighter. -/
theorem raise_eq_or_weight_lt (t : PostDominatorTree) (v p : Nat) :
    t.raise v p = t ∨ (t.raise v p).weight < t.weight := by
  by_cases h : t.number p < t.height v
  · -- a parent is only replaced by a nearer one, so that the height of the position falls
    by_cases hv : v < t.parents.size
    · right
      have hparent (w : Nat) : (t.raise v p).parent? w = if v = w then some p else t.parent? w := by
        simp only [parent?, raise, dif_pos h, Array.getD_eq_getD_getElem?, Array.getElem?_setIfInBounds]
        grind
      have hnumber (w : Nat) : (t.raise v p).number w = t.number w := by
        rw [raise, dif_pos h]
        rfl
      have hsize : (t.raise v p).parents.size = t.parents.size := by
        simp [raise, dif_pos h]
      rw [weight, weight, hsize]
      refine weightBelow_lt hv ?_ fun w => ?_
      · rwa [height, hnumber, hparent, if_pos rfl]
      · rw [height, hnumber, hparent]
        split
        · rename_i heq
          exact heq ▸ Nat.le_of_lt h
        · exact Nat.le_refl _
    · left
      have hset : t.parents.setIfInBounds v (some p) = t.parents :=
        Array.setIfInBounds_eq_of_size_le (Nat.le_of_not_lt hv)
      rw [raise, dif_pos h]
      congr
  · exact .inl (dif_neg h)

/-- Placing a position leaves the tree as it is, or makes it lighter. -/
theorem place_eq_or_weight_lt (a : FlowAdjacency) (t : PostDominatorTree) (v : Nat) :
    place a t v = t ∨ (place a t v).weight < t.weight := by
  unfold place
  split
  · exact t.raise_eq_or_weight_lt v _
  · exact .inl rfl

/-- A sweep leaves the tree as it is, or makes it lighter. -/
theorem sweep_eq_or_weight_lt (a : FlowAdjacency) (order : List Nat) (t : PostDominatorTree) :
    sweep a order t = t ∨ (sweep a order t).weight < t.weight := by
  induction order generalizing t with
  | nil => exact .inl rfl
  | cons v order ih =>
    change sweep a order (place a t v) = t ∨ (sweep a order (place a t v)).weight < t.weight
    rcases place_eq_or_weight_lt a t v with heq | hlt
    · rw [heq]
      exact ih t
    · refine .inr ?_
      rcases ih (place a t v) with heq | hlt'
      · rwa [heq]
      · exact Nat.lt_trans hlt' hlt

/-- Goes through some positions again and again, until nothing changes. -/
def settle (a : FlowAdjacency) (order : List Nat) (t : PostDominatorTree) : PostDominatorTree :=
  -- a tree with another parent anywhere weighs less
  if _h : (sweep a order t).weight = t.weight then t else settle a order (sweep a order t)
termination_by t.weight
decreasing_by exact (sweep_eq_or_weight_lt a order t).resolve_left fun h => _h (congrArg weight h)

/-- The tree in which only the exit has its place. -/
def start (a : FlowAdjacency) : PostDominatorTree where
  root := a.exit
  numbers := ((List.range a.size).map (a.exitOrder.idxOf ·)).toArray
  parents := Array.replicate a.size none
  parent_lt := by
    intro v p h
    rw [Array.getD_eq_getD_getElem?, Array.getElem?_replicate] at h
    split at h <;> cases h

/-- The tree of post-dominators. -/
def compute (a : FlowAdjacency) : PostDominatorTree := settle a a.exitOrder.tail (start a)

end PostDominatorTree

end Slicing
