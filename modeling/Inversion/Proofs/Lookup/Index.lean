/-
# The indices

Besides the marks of the beans a registry has indices, filled one bean at a time
as the beans are resolved, and once all beans are resolved it is the indices that
answer. `Indexed` counts their entries: a settled bean stands in them under its
type and each of its exports, as often as these are given, and under its name;
any other bean does not. Resolutions keep this, whatever their conditions do
(`persists_indexed`).

So once every bean is settled or deleted, the answer from the indices and the
answer of a scan over the beans have the same members: the beans that are not
deleted and match (`mem_lookup`, `mem_present`).
-/
import Inversion.Proofs.Lookup.Nesting
import Inversion.Proofs.Wiring.Gathering

namespace Inversion

/-! ### Entries -/

/-- The entries of one bean. -/
theorem count_map_pair {α : Type} [DecidableEq α] (ts : List α) (t : α) (b c : Nat) :
    (ts.map (·, b)).count (t, c) = if c = b then ts.count t else 0 := by
  induction ts with
  | nil => simp
  | cons u us ih =>
    rw [List.map_cons, List.count_cons, List.count_cons, ih]
    by_cases hc : c = b
    · simp [hc]
    · have hbc : ¬ b = c := fun h => hc h.symm
      simp [hc, hbc]

namespace Registry

variable {r : Registry} {b : Nat}

theorem mem_typed {t : TypeName} : b ∈ r.typed t ↔ (t, b) ∈ r.byType := by
  simp [typed]

theorem mem_named {n : String} : b ∈ r.named n ↔ (n, b) ∈ r.byName := by
  simp [named]

end Registry

namespace Plan

variable {plan : Plan} {r r' : Registry} {b : Nat} {bean : Bean}

theorem insertRepeated_perm (t : TypeName) :
    ∀ ts : List TypeName, (insertRepeated t ts).Perm (t :: ts)
  | [] => .refl _
  | u :: us => by
    unfold insertRepeated
    split
    · exact .refl _
    · exact ((insertRepeated_perm t us).cons u).trans (.swap t u us)

/-- What indexing changes in the registry. -/
theorem registry_index (b : Nat) (bean : Bean) (exports : List TypeName) (p : Progress) :
    (index b bean exports p).registry = { p.registry with
      byType := p.registry.byType ++ (insertRepeated bean.type exports).map (·, b)
      byName := p.registry.byName ++ bean.name.toList.map (·, b) } := by
  have htypes : ∀ (ts : List TypeName) (p : Progress),
      (ts.foldl (fun p t =>
        { p with registry := p.registry.indexType t b }.note (.indexedByType bean.id t)) p).registry =
          { p.registry with byType := p.registry.byType ++ ts.map (·, b) } := by
    intro ts
    induction ts with
    | nil => simp
    | cons t ts ih =>
      intro p
      rw [List.foldl_cons, ih]
      simp [Registry.indexType]
  unfold index
  cases hn : bean.name with
  | none => simp [htypes]
  | some name => simp [htypes, Registry.indexName]

/-- The types under which a bean is indexed. -/
def typeKeys (plan : Plan) (r : Registry) (b : Nat) : List TypeName :=
  if (r.status b).isSettled then
    (plan.beans[b]?).elim [] fun bean => bean.type :: r.exports b
  else []

/-- The names under which a bean is indexed. -/
def nameKeys (plan : Plan) (r : Registry) (b : Nat) : List String :=
  if (r.status b).isSettled then ((plan.beans[b]?).bind (·.name)).toList else []

/-- The indices have the entries of all settled beans, and no other. -/
structure Indexed (plan : Plan) (r : Registry) : Prop extends plan.Sound r where
  byType : ∀ t b, r.byType.count (t, b) = (plan.typeKeys r b).count t
  byName : ∀ n b, r.byName.count (n, b) = (plan.nameKeys r b).count n

/-! ### Resolutions -/

/-- To begin a bean settles none. -/
theorem isSettled_begin {p : Progress} (hb : p.registry.status b = .fresh) (c : Nat) :
    ((p.setStatus b .resolving).registry.status c).isSettled = (p.registry.status c).isSettled := by
  rw [Progress.registry_setStatus, Registry.status_setStatus]
  split
  · rename_i h
    rw [h.1, hb]
    rfl
  · rfl

/-- To discard a bean settles none. -/
theorem isSettled_discard {p : Progress} (hb : p.registry.status b = .resolving) (c : Nat) :
    ((plan.discard b p).registry.status c).isSettled = (p.registry.status c).isSettled := by
  by_cases hc : c = b
  · rw [hc, hb, status_discard_self b p plan (Registry.lt_length_of_status_eq hb (by decide))]
    rfl
  · rw [status_discard_of_ne b c p plan hc]

theorem exports_settle_self (p : Progress) (exports : List TypeName)
    (hb : b < p.registry.marks.length) :
    (Plan.settle b bean exports p).registry.exports b = exports := by
  refine (Registry.exports_setStatus _ b b .resolved).trans (Registry.exports_setExports_self _ b _ ?_)
  rwa [registry_index]

theorem byType_settle (p : Progress) (exports : List TypeName) :
    (Plan.settle b bean exports p).registry.byType =
      p.registry.byType ++ (insertRepeated bean.type exports).map (·, b) :=
  congrArg Registry.byType (registry_index b bean exports p)

/-- Nothing is indexed before the beans are resolved. -/
theorem Indexed.of_new (plan : Plan) : plan.Indexed (Registry.ofBeans plan.beans) := by
  have hnone : ∀ b, ((Registry.ofBeans plan.beans).status b).isSettled = false := by
    intro b
    rw [Registry.status_ofBeans]
    split <;> rfl
  refine ⟨⟨List.length_map .., fun b bean _ hb => ?_⟩, fun t b => ?_, fun n b => ?_⟩
  · rw [hnone b] at hb
    cases hb
  · rw [typeKeys, hnone b]
    rfl
  · rw [nameKeys, hnone b]
    rfl

/-- Changes that settle no bean and index none. -/
theorem Indexed.of_same (h : plan.Indexed r) (hlen : r'.marks.length = r.marks.length)
    (hs : ∀ b, (r'.status b).isSettled = (r.status b).isSettled)
    (he : ∀ b, r'.exports b = r.exports b) (ht : r'.byType = r.byType) (hn : r'.byName = r.byName) :
    plan.Indexed r' where
  length := hlen.trans h.length
  exports b bean hbean hb := by
    rw [he b]
    exact h.exports b bean hbean (hs b ▸ hb)
  byType t b := by
    rw [ht, h.byType, typeKeys, typeKeys, hs b, he b]
  byName n b := by
    rw [hn, h.byName, nameKeys, nameKeys, hs b]

/-- The entries of a bean that is settled are added to those of the others. -/
theorem Indexed.settle {p : Progress} (h : plan.Indexed p.registry) {exports : List TypeName}
    (hbean : plan.beans[b]? = some bean) (hb : p.registry.status b = .resolving)
    (he : plan.exportsOf bean = .ok exports) :
    plan.Indexed (Plan.settle b bean exports p).registry := by
  have hlt : b < p.registry.marks.length := Registry.lt_length_of_status_eq hb (by decide)
  have hbn : (Plan.settle b bean exports p).registry.byName =
      p.registry.byName ++ bean.name.toList.map (·, b) :=
    congrArg Registry.byName (registry_index b bean exports p)
  have hstatus := status_settle_self b bean exports p hlt
  have hexports : (Plan.settle b bean exports p).registry.exports b = exports :=
    exports_settle_self p exports hlt
  refine ⟨⟨(length_settle b bean exports p).trans h.length, fun c bean' hbean' hc => ?_⟩,
    fun t c => ?_, fun n c => ?_⟩
  · by_cases hcb : c = b
    · subst hcb
      cases Option.some.inj (hbean.symm.trans hbean')
      rw [hexports, he]
    · rw [status_settle_of_ne b c bean exports p hcb] at hc
      rw [exports_settle_of_ne b c bean exports p hcb]
      exact h.exports c bean' hbean' hc
  · rw [byType_settle, List.count_append, h.byType, count_map_pair]
    by_cases hcb : c = b
    · subst hcb
      rw [if_pos rfl, (insertRepeated_perm bean.type exports).count_eq]
      simp [typeKeys, hb, hstatus, hbean, hexports, Status.isSettled]
    · simp [typeKeys, status_settle_of_ne b c bean exports p hcb,
        exports_settle_of_ne b c bean exports p hcb, hcb]
  · rw [hbn, List.count_append, h.byName, count_map_pair]
    by_cases hcb : c = b
    · subst hcb
      simp [nameKeys, hb, hstatus, hbean, Status.isSettled]
    · simp [nameKeys, status_settle_of_ne b c bean exports p hcb, hcb]

theorem persists_indexed (plan : Plan) : plan.Persists fun p => plan.Indexed p.registry where
  note _ _ _ hp := hp
  begin _ b hb hp := hp.of_same (Registry.length_setStatus _ b _) (isSettled_begin hb)
    (fun c => Registry.exports_setStatus _ b c _) rfl rfl
  settle _ _ _ _ hbean hb he hp := hp.settle hbean hb he
  discard p b hb hp := hp.of_same (length_discard b p plan) (isSettled_discard hb)
    (fun c => exports_discard b c p plan) rfl rfl

/-! ### Answers -/

theorem mem_typeKeys (t : TypeName) :
    t ∈ plan.typeKeys r b ↔ (r.status b).isSettled ∧ plan.selects r (.type t) b := by
  unfold typeKeys selects
  cases hs : (r.status b).isSettled with
  | false => simp
  | true =>
    cases plan.beans[b]? with
    | none => simp
    | some bean => simp [Selector.matchesBean, eq_comm (a := t)]

theorem Indexed.mem_typed (h : plan.Indexed r) (t : TypeName) :
    b ∈ r.typed t ↔ (r.status b).isSettled ∧ plan.selects r (.type t) b := by
  rw [Registry.mem_typed, ← List.count_pos_iff, h.byType, List.count_pos_iff, mem_typeKeys]

theorem Indexed.mem_named (h : plan.Indexed r) (n : String) :
    b ∈ r.named n ↔ (r.status b).isSettled ∧ plan.selects r (.name n) b := by
  rw [Registry.mem_named, ← List.count_pos_iff, h.byName, List.count_pos_iff]
  unfold nameKeys selects
  cases hs : (r.status b).isSettled with
  | false => simp
  | true =>
    cases plan.beans[b]? with
    | none => simp
    | some bean => simp [Selector.matchesBean]

/-- A bean that a selector selects has the name that the selector gives. -/
theorem selects_name {sel : Selector} {n : String} (hn : sel.name? = some n)
    (h : plan.selects r sel b) : plan.selects r (.name n) b := by
  unfold selects at h ⊢
  rw [Option.any_eq_true] at h ⊢
  obtain ⟨bean, hbean, hm⟩ := h
  refine ⟨bean, hbean, ?_⟩
  cases sel with
  | name m =>
    cases hn
    exact hm
  | type t => cases hn
  | typedName t m =>
    cases hn
    exact ((Bool.and_eq_true _ _).mp hm).1
  | parsed text m =>
    have hname : m = some n := hn
    subst hname
    simp only [Selector.matchesBean, Option.isNone_some, Bool.false_or] at hm
    exact ((Bool.and_eq_true _ _).mp hm).1

/-- The answer from the indices. -/
theorem mem_lookup (h : plan.Indexed r) (hd : r.Decided) (sel : Selector) :
    b ∈ plan.lookup r sel ↔ r.status b ≠ .deleted ∧ plan.selects r sel b := by
  have hsettled : (r.status b).isSettled ↔ r.status b ≠ .deleted :=
    ⟨Status.ne_deleted_of_isSettled, (hd b).resolve_right⟩
  have hfilter : ∀ n, sel.name? = some n →
      (b ∈ (r.named n).filter (plan.selects r sel) ↔
        r.status b ≠ .deleted ∧ plan.selects r sel b) := by
    intro n hn
    rw [List.mem_filter, h.mem_named, hsettled]
    exact ⟨fun hb => ⟨hb.1.1, hb.2⟩, fun hb => ⟨⟨hb.1, selects_name hn hb.2⟩, hb.2⟩⟩
  match sel with
  | .name n => exact (h.mem_named n).trans (and_congr_left fun _ => hsettled)
  | .type t => exact (h.mem_typed t).trans (and_congr_left fun _ => hsettled)
  | .typedName t n => exact hfilter n rfl
  | .parsed text (some n) => exact hfilter n rfl
  | .parsed text none =>
    show b ∈ r.active.filter _ ↔ _
    rw [List.mem_filter, Registry.mem_active]

/-- The answer of a scan when nothing is left to resolve. -/
theorem present_of_decided (h : plan.Sound r) (hd : r.Decided) (sel : Selector) :
    plan.present r sel = r.active.filter (plan.selects r sel) := by
  unfold present candidates
  rw [List.filter_filter]
  refine List.filter_congr fun b hb => ?_
  have hactive := Registry.mem_active.mp hb
  have hs : (r.status b).isSettled := (hd b).resolve_right hactive
  rw [Bool.eq_iff_iff, Bool.and_eq_true, decide_eq_true_eq]
  refine ⟨fun ⟨hselects, _⟩ => hselects.2.2, fun hselects => ⟨⟨fun hr => ?_, hactive, hselects⟩, ?_⟩⟩
  · rw [hr] at hs
    cases hs
  · exact mayMatch_of_answersTo (h.answersTo hs sel ▸ hselects)

theorem mem_present (h : plan.Sound r) (hd : r.Decided) (sel : Selector) :
    b ∈ plan.present r sel ↔ r.status b ≠ .deleted ∧ plan.selects r sel b := by
  rw [present_of_decided h hd, List.mem_filter, Registry.mem_active]

end Plan
end Inversion
