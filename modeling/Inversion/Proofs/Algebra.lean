/-
# The algebra of conditions

Negations and groups obey the laws of a Boolean algebra that keep the order of the conditions:
a negation passes to the members of a group, two negations cancel, and a group inside a group
of its kind dissolves into it. Conditions look up beans, which resolves and deletes
others, and they fail; the laws hold with all of this, as equations between computations,
whatever the lookups do (`holds_not_all`, `holds_not_not`, `allHold_append`).

Conditions that come to the same by such equations may stand for one another in every place
(`Condition.Alike`), and so may lists of conditions of which all have to hold
(`Condition.AllAlike`).
-/
import Mathlib.Data.List.Forall2
import Inversion.Resolution

namespace Inversion

variable {plan : Plan} {find : Selector → Checking (List Nat)}

/-! ### Negation -/

theorem holds_not_not (c : Condition) :
    (Condition.not (.not c)).holds plan find = c.holds plan find := by
  simp only [Condition.holds, bind_assoc, pure_bind, Bool.not_not, bind_pure]

/-- A conjunction and the disjunction of the negations stop behind the same member. -/
theorem anyHolds_map_not : ∀ cs : List Condition,
    anyHolds plan find (cs.map .not) = allHold plan find cs >>= fun b => pure (!b)
  | [] => by simp only [List.map_nil, anyHolds, allHold, pure_bind, Bool.not_true]
  | c :: cs => by
    simp only [List.map_cons, anyHolds, allHold, Condition.holds, bind_assoc, pure_bind]
    refine bind_congr fun b => ?_
    cases b with
    | true => exact anyHolds_map_not cs
    | false => rfl

theorem allHold_map_not : ∀ cs : List Condition,
    allHold plan find (cs.map .not) = anyHolds plan find cs >>= fun b => pure (!b)
  | [] => by simp only [List.map_nil, anyHolds, allHold, pure_bind, Bool.not_false]
  | c :: cs => by
    simp only [List.map_cons, anyHolds, allHold, Condition.holds, bind_assoc, pure_bind]
    refine bind_congr fun b => ?_
    cases b with
    | true => rfl
    | false => exact allHold_map_not cs

theorem holds_not_all (cs : List Condition) :
    (Condition.not (.all cs)).holds plan find = (Condition.any (cs.map .not)).holds plan find := by
  simp only [Condition.holds, anyHolds_map_not]

theorem holds_not_any (cs : List Condition) :
    (Condition.not (.any cs)).holds plan find = (Condition.all (cs.map .not)).holds plan find := by
  simp only [Condition.holds, allHold_map_not]

/-! ### Groups -/

/-- The rest of a group is evaluated only if the first part has not decided it. -/
theorem allHold_append (ds : List Condition) : ∀ cs : List Condition,
    allHold plan find (cs ++ ds) =
      allHold plan find cs >>= fun b => if b then allHold plan find ds else pure false
  | [] => by simp only [List.nil_append, allHold, pure_bind, if_true]
  | c :: cs => by
    simp only [List.cons_append, allHold, bind_assoc]
    refine bind_congr fun b => ?_
    cases b with
    | true => exact allHold_append ds cs
    | false => rfl

theorem anyHolds_append (ds : List Condition) : ∀ cs : List Condition,
    anyHolds plan find (cs ++ ds) =
      anyHolds plan find cs >>= fun b => if b then pure true else anyHolds plan find ds
  | [] => by simp only [List.nil_append, anyHolds, pure_bind, Bool.false_eq_true, if_false]
  | c :: cs => by
    simp only [List.cons_append, anyHolds, bind_assoc]
    refine bind_congr fun b => ?_
    cases b with
    | true => rfl
    | false => exact anyHolds_append ds cs

theorem allHold_flatten (cs ds es : List Condition) :
    allHold plan find (cs ++ .all ds :: es) = allHold plan find (cs ++ ds ++ es) := by
  rw [List.append_assoc, allHold_append, allHold_append]
  refine bind_congr fun b => ?_
  rw [allHold_append]
  simp only [allHold, Condition.holds]

theorem anyHolds_flatten (cs ds es : List Condition) :
    anyHolds plan find (cs ++ .any ds :: es) = anyHolds plan find (cs ++ ds ++ es) := by
  rw [List.append_assoc, anyHolds_append, anyHolds_append]
  refine bind_congr fun b => ?_
  rw [anyHolds_append]
  simp only [anyHolds, Condition.holds]

/-! ### In every place -/

namespace Condition

/-- The conditions come to the same, with the same effects, whatever the lookups do. -/
def Alike (c c' : Condition) : Prop :=
  ∀ plan find, c'.holds plan find = c.holds plan find

/-- The lists of conditions come to the same where all of a list have to hold. -/
def AllAlike (cs cs' : List Condition) : Prop :=
  ∀ plan find, allHold plan find cs' = allHold plan find cs

variable {c c' : Condition} {cs cs' : List Condition}

theorem AllAlike.refl (cs : List Condition) : AllAlike cs cs :=
  fun _ _ => rfl

/-- Conditions that have to hold one by one are one group that has to hold. -/
theorem allAlike_all (cs : List Condition) : AllAlike cs [.all cs] := fun plan find => by
  rw [← List.nil_append [Condition.all cs], allHold_flatten, List.nil_append, List.append_nil]

theorem Alike.not (h : c.Alike c') : (Condition.not c).Alike (.not c') := fun plan find => by
  simp only [holds, h plan find]

theorem Alike.context (h : c.Alike c') (message : String) :
    (Condition.context message c).Alike (.context message c') := fun plan find => by
  simp only [holds, h plan find]

/-- Members that come to the same may stand for one another. -/
theorem AllAlike.of_members (h : List.Forall₂ Alike cs cs') : AllAlike cs cs' := fun plan find => by
  induction h with
  | nil => rfl
  | cons h _ ih => rw [allHold, allHold, h plan find, ih]

theorem anyHolds_of_members (h : List.Forall₂ Alike cs cs') (plan : Plan)
    (find : Selector → Checking (List Nat)) : anyHolds plan find cs' = anyHolds plan find cs := by
  induction h with
  | nil => rfl
  | cons h _ ih => rw [anyHolds, anyHolds, h plan find, ih]

theorem Alike.all (h : List.Forall₂ Alike cs cs') : (Condition.all cs).Alike (.all cs') :=
  fun plan find => by simp only [holds, AllAlike.of_members h plan find]

theorem Alike.any (h : List.Forall₂ Alike cs cs') : (Condition.any cs).Alike (.any cs') :=
  fun plan find => by simp only [holds, anyHolds_of_members h plan find]

end Condition
end Inversion
