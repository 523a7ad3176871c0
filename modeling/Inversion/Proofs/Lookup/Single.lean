/-
# The only bean of a type

A query for the only bean that provides a type is exact if it gives the instance
where exactly one bean does, and where several do, lists each of them once
(`Plan.Exact`). That depends on the list it chooses from having no bean twice
(`exact_single`). A scan lists no bean twice, and so an argument is served exactly.
The indices list a bean twice in one case: a bean that exports its own type stands
under that type once for itself and once for the export (`nodup_lookup`). So of a
refreshed container the queries by name are all exact, and those by type for every
type but such a one (`get_exact`).
-/
import Mathlib.Data.List.Basic
import Inversion.Proofs.Lookup.Steady
import Inversion.Proofs.Closing

namespace Inversion

/-! ### Entries without repetition -/

namespace Registry

variable {r : Registry} {b : Nat}

theorem count_typed (t : TypeName) : (r.typed t).count b = r.byType.count (t, b) := by
  unfold typed
  rw [List.count, List.countP_map, List.countP_filter, List.count]
  refine List.countP_congr fun e _ => ?_
  rcases e with ⟨u, c⟩
  simp [and_comm]

theorem count_named (n : String) : (r.named n).count b = r.byName.count (n, b) := by
  unfold named
  rw [List.count, List.countP_map, List.countP_filter, List.count]
  refine List.countP_congr fun e _ => ?_
  rcases e with ⟨m, c⟩
  simp [and_comm]

theorem nodup_active : r.active.Nodup :=
  List.nodup_range.filter _

end Registry

namespace Plan

variable {plan : Plan} {r : Registry} {t : TypeName} {sel : Selector} {b : Nat} {bs : List Nat}

/-- A bean that is not deleted exports its own type. -/
def SelfExports (plan : Plan) (r : Registry) (t : TypeName) : Prop :=
  ∃ b bean, plan.beans[b]? = some bean ∧ r.status b ≠ .deleted ∧ bean.type = t ∧ t ∈ r.exports b

theorem nodup_present : (plan.present r sel).Nodup :=
  (Registry.nodup_active.filter _).filter _

theorem nodup_named (h : plan.Indexed r) (n : String) : (r.named n).Nodup := by
  refine List.nodup_iff_count_le_one.mpr fun b => ?_
  rw [Registry.count_named, h.byName]
  refine List.nodup_iff_count_le_one.mp ?_ n
  unfold nameKeys
  split
  · cases (plan.beans[b]?).bind (·.name) <;> simp
  · exact List.nodup_nil

/-- A type is given once by a bean, unless the bean exports the type that it has. -/
theorem count_typeKeys (h : plan.Indexed r) {bean : Bean} (hbean : plan.beans[b]? = some bean)
    (hb : (r.status b).isSettled) (t : TypeName) :
    (plan.typeKeys r b).count t ≤ 1 ↔ (bean.type = t → t ∉ r.exports b) := by
  have hkeys : plan.typeKeys r b = bean.type :: r.exports b := by simp [typeKeys, hb, hbean]
  have hexports : (r.exports b).Nodup := (exportsOf_ascending (h.exports b bean hbean hb)).nodup
  have hle : (r.exports b).count t ≤ 1 := List.nodup_iff_count_le_one.mp hexports t
  rw [hkeys, List.count_cons, ← List.count_eq_zero]
  by_cases ht : bean.type = t
  · simp only [ht, beq_self_eq_true, if_true, true_imp_iff]
    omega
  · simp only [ht, beq_eq_false_iff_ne.mpr ht, Bool.false_eq_true, if_false, false_imp_iff, iff_true]
    omega

theorem nodup_typed (h : plan.Indexed r) (hd : r.Decided) (t : TypeName) :
    (r.typed t).Nodup ↔ ¬ plan.SelfExports r t := by
  have hcount : ∀ b, (r.typed t).count b = (plan.typeKeys r b).count t := fun b =>
    (Registry.count_typed t).trans (h.byType t b)
  rw [List.nodup_iff_count_le_one]
  constructor
  · rintro hle ⟨b, bean, hbean, hb, ht, hin⟩
    have hs : (r.status b).isSettled := (hd b).resolve_right hb
    exact (count_typeKeys h hbean hs t).mp (hcount b ▸ hle b) ht hin
  · intro hnone b
    rw [hcount]
    by_cases hs : (r.status b).isSettled
    · cases hbean : plan.beans[b]? with
      | none => simp [typeKeys, hbean]
      | some bean =>
        refine (count_typeKeys h hbean hs t).mpr fun ht hin => hnone ?_
        exact ⟨b, bean, hbean, Status.ne_deleted_of_isSettled hs, ht, hin⟩
    · simp [typeKeys, hs]

/-- The indices list a bean twice only under a type that is its own and exported. -/
theorem nodup_lookup (h : plan.Indexed r) (hd : r.Decided) (sel : Selector) :
    (plan.lookup r sel).Nodup ↔ ∀ t, sel = .type t → ¬ plan.SelfExports r t := by
  have hother : (∀ t, sel ≠ .type t) → (plan.lookup r sel).Nodup →
      ((plan.lookup r sel).Nodup ↔ ∀ t, sel = .type t → ¬ plan.SelfExports r t) := fun hne hn =>
    iff_of_true hn fun t ht => absurd ht (hne t)
  match sel with
  | .name n => exact hother (by simp) (nodup_named h n)
  | .type t =>
    refine (nodup_typed h hd t).trans ⟨fun hn u hu => ?_, fun hn => hn t rfl⟩
    cases hu
    exact hn
  | .typedName t n => exact hother (by simp) ((nodup_named h n).filter _)
  | .parsed text (some n) => exact hother (by simp) ((nodup_named h n).filter _)
  | .parsed text none => exact hother (by simp) (Registry.nodup_active.filter _)

/-! ### Exact answers -/

/-- A bean that is not deleted and matches. -/
def Provides (plan : Plan) (r : Registry) (sel : Selector) (b : Nat) : Prop :=
  r.status b ≠ .deleted ∧ plan.selects r sel b

/-- The answer is the instance of the only bean that matches, if there is exactly one,
and if there are several, it lists each of them once. -/
structure Exact (plan : Plan) (r : Registry) (t : TypeName) (sel : Selector)
    (x : Except WireError Instance) : Prop where
  found : (∃ i, x = .ok i) ↔ ∃ b, ∀ c, plan.Provides r sel c ↔ c = b
  given : ∀ i, x = .ok i → ∀ b, plan.Provides r sel b → plan.instance? r b t = some i
  missing : x = .error (.noBean t) ↔ ∀ b, ¬ plan.Provides r sel b
  ambiguous : (∃ ids, x = .error (.ambiguous t ids)) ↔
    ∃ b c, b ≠ c ∧ plan.Provides r sel b ∧ plan.Provides r sel c
  listed : ∀ ids, x = .error (.ambiguous t ids) →
    ∃ bs : List Nat, bs.Nodup ∧ (∀ b, b ∈ bs ↔ plan.Provides r sel b) ∧ ids = bs.map plan.idOf

theorem instance?_of_instanceOf {i : Instance} (h : plan.instanceOf r t b = .ok i) :
    plan.instance? r b t = some i := by
  unfold instanceOf at h
  split at h
  · cases h
  · cases hi : plan.instance? r b t with
    | none =>
      rw [hi] at h
      cases h
    | some j =>
      rw [hi] at h
      cases h
      rfl

section
variable (hmem : ∀ b, b ∈ bs ↔ plan.Provides r sel b)
  (hheld : ∀ b, plan.Provides r sel b → ∃ i, plan.instanceOf r t b = .ok i)
include hmem

theorem exact_none (hbs : bs = []) : plan.Exact r t sel (plan.singleInstance r t bs) := by
  subst hbs
  have hnone : ∀ b, ¬ plan.Provides r sel b := fun b hb => List.not_mem_nil ((hmem b).mpr hb)
  refine ⟨?_, ?_, ?_, ?_, ?_⟩
  · exact iff_of_false (by rintro ⟨i, hi⟩; cases hi) fun ⟨b, hb⟩ => hnone b ((hb b).mpr rfl)
  · intro i hi
    cases hi
  · exact iff_of_true rfl hnone
  · exact iff_of_false (by rintro ⟨ids, hids⟩; cases hids) fun ⟨b, _, _, hb, _⟩ => hnone b hb
  · intro ids hids
    cases hids

include hheld in
theorem exact_one (hbs : bs = [b]) : plan.Exact r t sel (plan.singleInstance r t bs) := by
  subst hbs
  have hone : ∀ c, plan.Provides r sel c ↔ c = b := fun c => (hmem c).symm.trans List.mem_singleton
  obtain ⟨i, hi⟩ := hheld b ((hone b).mpr rfl)
  have hx : plan.singleInstance r t [b] = .ok i := hi
  rw [hx]
  refine ⟨iff_of_true ⟨i, rfl⟩ ⟨b, hone⟩, ?_, ?_, ?_, ?_⟩
  · intro j hj c hc
    cases hj
    rw [(hone c).mp hc]
    exact instance?_of_instanceOf hi
  · exact iff_of_false (by intro h; cases h) fun h => h b ((hone b).mpr rfl)
  · refine iff_of_false (by rintro ⟨ids, hids⟩; cases hids) fun ⟨c, d, hne, hc, hd⟩ => ?_
    exact hne (((hone c).mp hc).trans ((hone d).mp hd).symm)
  · intro ids hids
    cases hids

theorem exact_several {c : Nat} {rest : List Nat} (hbs : bs = b :: c :: rest) (hn : bs.Nodup) :
    plan.Exact r t sel (plan.singleInstance r t bs) := by
  have hb : plan.Provides r sel b := (hmem b).mp (by simp [hbs])
  have hc : plan.Provides r sel c := (hmem c).mp (by simp [hbs])
  have hne : b ≠ c := by
    rw [hbs] at hn
    rintro rfl
    exact (List.nodup_cons.mp hn).1 List.mem_cons_self
  have hx : plan.singleInstance r t bs = .error (.ambiguous t (bs.map plan.idOf)) := by
    rw [hbs]
    rfl
  rw [hx]
  refine ⟨?_, ?_, ?_, ?_, ?_⟩
  · refine iff_of_false (by rintro ⟨i, hi⟩; cases hi) fun ⟨d, hd⟩ => ?_
    exact hne (((hd b).mp hb).trans ((hd c).mp hc).symm)
  · intro i hi
    cases hi
  · exact iff_of_false (by intro h; cases h) fun h => h b hb
  · exact iff_of_true ⟨_, rfl⟩ ⟨b, c, hne, hb, hc⟩
  · intro ids hids
    cases hids
    exact ⟨bs, hn, hmem, rfl⟩

include hheld in
/-- Choosing from a list of the beans that match is exact if the list has no bean
twice, and only then. -/
theorem exact_single : plan.Exact r t sel (plan.singleInstance r t bs) ↔ bs.Nodup := by
  constructor
  · intro h
    match hbs : bs with
    | [] => exact List.nodup_nil
    | [b] => exact List.nodup_singleton b
    | b :: c :: rest =>
      obtain ⟨cs, hcs, hsame, hids⟩ := h.listed _ rfl
      have hlen : (b :: c :: rest).length = cs.length := by
        have := congrArg List.length hids
        rwa [List.length_map, List.length_map] at this
      have hsub : cs ⊆ b :: c :: rest := fun d hd => (hmem d).mpr ((hsame d).mp hd)
      exact ((hcs.subperm hsub).perm_of_length_le (Nat.le_of_eq hlen)).nodup_iff.mp hcs
  · intro hn
    match hbs : bs with
    | [] => exact exact_none hmem rfl
    | [b] => exact exact_one hmem hheld rfl
    | b :: c :: rest => exact exact_several hmem rfl hn

end

/-- A list without repetition has one member if it has exactly one. -/
theorem eq_singleton_iff (hn : bs.Nodup) : bs = [b] ↔ ∀ c, c ∈ bs ↔ c = b := by
  constructor
  · rintro rfl c
    exact List.mem_singleton
  · intro h
    refine List.perm_singleton.mp ((List.perm_ext_iff_of_nodup hn (List.nodup_singleton b)).mpr ?_)
    exact fun c => (h c).trans List.mem_singleton.symm

/-! ### Arguments -/

/-- An argument that asks for the only bean is served if there is only one, and that
one is received. -/
theorem receiveOne_ok {a : Assembly} (hcalm : a.registry.Calm) (wire : Nat → Wiring Unit)
    (asker : Asker) :
    (∃ i, (outcome (plan.receiveOne wire asker t sel) a).1 = .ok i) ↔
      ∃ b, plan.present a.registry sel = [b] ∧
        ∃ i, (outcome (plan.receive wire asker t b)
          { a with progress := (outcome (plan.find sel) a.progress).2 }).1 = .ok i := by
  have hfind : outcome (Wiring.ofResolving (plan.find sel)) a =
      (.ok (plan.present a.registry sel),
        { a with progress := (outcome (plan.find sel) a.progress).2 }) := by
    have hfound : After (Wiring.ofResolving (plan.find sel)) a fun x t =>
        (x, t) = (.ok (plan.present a.registry sel),
          { a with progress := (outcome (plan.find sel) a.progress).2 }) := by
      rw [after_ofResolving]
      have hcalm := (@find_of_calm plan _ hcalm sel).2
      exact Prod.ext (by rw [hcalm]; rfl) rfl
    exact hfound
  have hdenied : (outcome (plan.receiveOne wire asker t sel) a).1 =
      (outcome (do
        let b ← Wiring.ofExcept (plan.single t (plan.present a.registry sel))
        plan.receive wire asker t b : Wiring Instance)
          { a with progress := (outcome (plan.find sel) a.progress).2 }).1 := by
    unfold receiveOne orDenied
    rw [outcome_noting, outcome_bind, hfind]
  rw [hdenied]
  match hp : plan.present a.registry sel with
  | [] => exact iff_of_false (by rintro ⟨i, hi⟩; cases hi) (by rintro ⟨b, hb, -⟩; cases hb)
  | [b] =>
    refine ⟨fun h => ⟨b, rfl, h⟩, fun ⟨c, hc, h⟩ => ?_⟩
    cases hc
    exact h
  | b :: c :: rest =>
    exact iff_of_false (by rintro ⟨i, hi⟩; cases hi) (by rintro ⟨b, hb, -⟩; cases hb)

/-- A bean that a query by type finds is of that type, or exports it. -/
theorem Provides.offers (h : plan.Provides r sel b) (hsel : sel = .type t ∨ ∃ n, sel = .typedName t n) :
    ∃ bean, plan.beans[b]? = some bean ∧ (bean.type = t ∨ t ∈ r.exports b) := by
  have hs := h.2
  unfold selects at hs
  rw [Option.any_eq_true] at hs
  obtain ⟨bean, hbean, hm⟩ := hs
  refine ⟨bean, hbean, ?_⟩
  rcases hsel with rfl | ⟨n, rfl⟩
  · simpa [Selector.matchesBean] using hm
  · simp only [Selector.matchesBean, Bool.and_eq_true] at hm
    simpa using hm.2

/-- A wired bean that provides a type can be had as one of that type. -/
theorem exists_instanceOf (h : plan.Sound r) (hw : r.status b = .wired)
    (hheld : (r.held b).isSome)
    (hoffers : ∃ bean, plan.beans[b]? = some bean ∧ (bean.type = t ∨ t ∈ r.exports b)) :
    ∃ i, plan.instanceOf r t b = .ok i := by
  obtain ⟨bean, hbean, ht⟩ := hoffers
  have hexports : plan.exportsOf bean = .ok (r.exports b) := h.exports b bean hbean (by rw [hw]; rfl)
  have himplements : bean.implements t := by
    rcases ht with rfl | ht
    · exact bean.implements_type
    · exact (exportsOf_eq_ok hexports).2 t ht
  obtain ⟨cast, hcast⟩ := Option.isSome_iff_exists.mp himplements
  obtain ⟨i, hi⟩ := Option.isSome_iff_exists.mp hheld
  refine ⟨cast.apply i, ?_⟩
  simp [instanceOf, instance?, hw, hi, hbean, hcast]

end Plan

/-! ### Refreshed containers -/

namespace Container

/-- What is known of a container with the standard injector that has been refreshed. -/
structure Settled (c : Container) : Prop where
  steadfast : Steadfast c.plan c.progress
  decided : c.registry.Decided
  wired : ∀ b, c.registry.status b ≠ .deleted →
    c.registry.status b = .wired ∧ (c.registry.held b).isSome

theorem performAll_settled (compositions : Compositions) (ops : List Operation) :
    let c := ((empty .standard compositions).performAll ops).2
    c.phase = .refreshed → Settled c := by
  intro c hr
  have h : Orderly c := performAll_orderly compositions ops
  have hlasts : Has _ c := performAll_lasts lasts_steadfast .standard compositions ops
  have hc := h.complete hr
  have hwired : ∀ b, c.registry.status b ≠ .deleted → c.registry.status b = .wired := hc.all
  refine ⟨hlasts.since (by rw [hr]; decide) (.inr h.injector), fun b => ?_, fun b hb => ?_⟩
  · refine or_iff_not_imp_right.mpr fun hb => ?_
    rw [hwired b hb]
    rfl
  · exact ⟨hwired b hb, hc.held b (hwired b hb)⟩

section
variable {c : Container} {t : TypeName} {sel : Selector}

theorem Settled.mem_lookup (h : Settled c) (sel : Selector) (b : Nat) :
    b ∈ c.plan.lookup c.registry sel ↔ c.plan.Provides c.registry sel b :=
  Plan.mem_lookup h.steadfast.indexed h.decided sel

/-- A query by type, with a name or without, is exact where its list has no bean twice. -/
theorem Settled.exact_iff (h : Settled c) (hsel : sel = .type t ∨ ∃ n, sel = .typedName t n) :
    c.plan.Exact c.registry t sel
        (c.plan.singleInstance c.registry t (c.plan.lookup c.registry sel)) ↔
      (c.plan.lookup c.registry sel).Nodup := by
  refine Plan.exact_single (h.mem_lookup sel) fun b hb => ?_
  obtain ⟨hw, hheld⟩ := h.wired b hb.1
  exact Plan.exists_instanceOf h.steadfast.indexed.toSound hw hheld (hb.offers hsel)

/-- What an argument finds, at any moment since the beans were resolved. -/
theorem Settled.present_eq (h : Settled c) {r : Registry} (hr : r.Steady c.registry) {plan : Plan}
    (hbeans : plan.beans = c.beans) {b : Nat} :
    plan.present r sel = [b] ↔ ∀ e, c.plan.Provides c.registry sel e ↔ e = b := by
  rw [Plan.present_congr c.plan hbeans, ← hr.present,
    Plan.eq_singleton_iff Plan.nodup_present]
  have hmem : ∀ e, e ∈ c.plan.present c.registry sel ↔ c.plan.Provides c.registry sel e := fun e =>
    Plan.mem_present h.steadfast.indexed.toSound h.decided sel
  exact forall_congr' fun e => iff_congr (hmem e) Iff.rfl

end

/-- In a refreshed container a query by type and name is exact, a query by type is exact
unless a bean of that type exports it, and the indices list a bean twice in that case
only. An argument that asks for the only bean of a type is served at any moment since
the beans were resolved if exactly one bean provides the type and can be received. -/
theorem get_exact (compositions : Compositions) (ops : List Operation) :
    let c := ((empty .standard compositions).performAll ops).2
    c.phase = .refreshed →
      (∀ t n, ∃ x, c.getNamed t n = .ok x ∧ c.plan.Exact c.registry t (.typedName t n) x) ∧
      (∀ t, ∃ x, c.get t = .ok x ∧
        (c.plan.Exact c.registry t (.type t) x ↔ ¬ c.plan.SelfExports c.registry t)) ∧
      (∀ sel, (c.plan.lookup c.registry sel).Nodup ↔
        ∀ t, sel = .type t → ¬ c.plan.SelfExports c.registry t) ∧
      ∀ later earlier r₀, c.progress.history = later ++ ⟨.beansResolved, r₀⟩ :: earlier →
        ∀ r, (r = c.registry ∨ r = r₀ ∨ ∃ m ∈ later, r = m.registry) →
          ∀ (plan : Plan) (wire : Nat → Wiring Unit) (asker : Asker) (t : TypeName) (a : Assembly),
            plan.beans = c.beans → a.registry = r →
              ((∃ i, (outcome (plan.receiveOne wire asker t (.type t)) a).1 = .ok i) ↔
                ∃ b, (∀ e, c.plan.Provides c.registry (.type t) e ↔ e = b) ∧
                  ∃ i, (outcome (plan.receive wire asker t b)
                    { a with progress := (outcome (plan.find (.type t)) a.progress).2 }).1 = .ok i) := by
  intro c hr
  have h : Settled c := performAll_settled compositions ops hr
  have hnodup : ∀ sel, (c.plan.lookup c.registry sel).Nodup ↔
      ∀ t, sel = .type t → ¬ c.plan.SelfExports c.registry t := fun sel =>
    Plan.nodup_lookup h.steadfast.indexed h.decided sel
  refine ⟨fun t n => ?_, fun t => ?_, hnodup, ?_⟩
  · refine ⟨c.plan.singleInstance c.registry t (c.plan.lookup c.registry (.typedName t n)), ?_, ?_⟩
    · unfold getNamed whenRefreshed
      rw [hr]
    · exact (h.exact_iff (.inr ⟨n, rfl⟩)).mpr ((hnodup _).mpr fun u hu => by cases hu)
  · refine ⟨c.plan.singleInstance c.registry t (c.plan.lookup c.registry (.type t)), ?_, ?_⟩
    · unfold get whenRefreshed
      rw [hr]
    · rw [h.exact_iff (.inl rfl), hnodup]
      refine ⟨fun hn => hn t rfl, fun hn u hu => ?_⟩
      cases hu
      exact hn
  · intro later earlier r₀ hhistory r hmoment plan wire asker t a hbeans ha
    have hin : (⟨.beansResolved, r₀⟩ : Moment) ∈ c.progress.history := by simp [hhistory]
    have hsteady : r₀.Steady r := h.steadfast.steady hhistory rfl hmoment
    have hnow : r.Steady c.registry := hsteady.symm.trans (h.steadfast.current _ hin rfl)
    have hcalm : a.registry.Calm := by
      rw [ha]
      exact hsteady.calm (h.steadfast.resolved _ hin rfl).calm
    rw [Plan.receiveOne_ok hcalm, ha]
    exact exists_congr fun b => and_congr_left fun _ => h.present_eq hnow hbeans

theorem get_exact_of_chain :
    let c := ((empty .standard ⟨[]⟩).performAll chain).2
    c.phase = .refreshed ∧ ∃ x, c.get (.of "app::Pool") = .ok x ∧
      (c.plan.Exact c.registry (.of "app::Pool") (.type (.of "app::Pool")) x ↔
        ¬ c.plan.SelfExports c.registry (.of "app::Pool")) := by
  refine ⟨by decide +kernel, ?_⟩
  exact (get_exact ⟨[]⟩ chain (by decide +kernel)).2.1 (.of "app::Pool")

/-- A bean that exports its own type. -/
def selfExporter : List Operation :=
  let bean : Bean := .plain (.of "app::A") (.main 1) (.object (.part 1 "a" none))
  [.register (bean.declareExport (.of "app::A")), .refresh]

/-- The only bean of a type is listed twice and refused as ambiguous, as it exports
its own type. -/
theorem get_of_selfExporter :
    let c := ((empty .standard ⟨[]⟩).performAll selfExporter).2
    c.phase = .refreshed ∧
      (∀ b, c.plan.Provides c.registry (.type (.of "app::A")) b ↔ b = 0) ∧
      c.plan.lookup c.registry (.type (.of "app::A")) = [0, 0] ∧
      c.get (.of "app::A") =
        .ok (.error (.ambiguous (.of "app::A") [c.plan.idOf 0, c.plan.idOf 0])) := by
  intro c
  have hphase : c.phase = .refreshed := by decide +kernel
  have hactive : c.registry.active = [0] := by decide +kernel
  have hselects : c.plan.selects c.registry (.type (.of "app::A")) 0 := by decide +kernel
  have hlookup : c.plan.lookup c.registry (.type (.of "app::A")) = [0, 0] := by decide +kernel
  refine ⟨hphase, fun b => ?_, hlookup, ?_⟩
  · have hb : c.registry.status b ≠ .deleted ↔ b = 0 := by
      rw [← Registry.mem_active, hactive, List.mem_singleton]
    refine ⟨fun h => hb.mp h.1, fun h => ⟨hb.mpr h, ?_⟩⟩
    rw [h]
    exact hselects
  · unfold get whenRefreshed
    rw [hphase, hlookup]
    rfl

end Container
end Inversion
