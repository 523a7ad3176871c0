/-
# What a composite bean provides

A bean is exported as the types that were declared, and a composite one also as what the
fields of its parts export (`mem_exportsOf`). With the moment when the bean is resolved it
stands in the index under its own type and under these, and later resolutions and creations
change neither its exports nor its entries (`Registry.Presents`). So from then on every
lookup by type finds it under these types and under no other, whatever the conditions do and
whatever the injector is (`composite_provides`).
-/
import Inversion.Proofs.Embedding
import Inversion.Proofs.Lookup.Deletion

namespace Inversion

open Inversion.Composition

theorem Plan.mem_exportsOf {plan : Plan} {bean : Bean} {exports : List TypeName}
    (h : plan.exportsOf bean = .ok exports) (hc : bean.composite) (t : TypeName) :
    t ∈ exports ↔
      t ∈ bean.exports ∨ Offers plan.compositions (plan.compositions.of bean.type) t := by
  obtain ⟨⟨offered, -, rfl, -, hoffered⟩, -⟩ := exportsOf_eq_ok h
  rw [mem_foldr_insertType, mem_autoExport (hoffered hc)]

/-! ### Entries that stay -/

namespace Registry

/-- The bean is settled with these exports, and in the index under them and its type. -/
structure Presents (b : Nat) (bean : Bean) (es : List TypeName) (r : Registry) : Prop where
  settled : (r.status b).isSettled
  exports : r.exports b = es
  typed : ∀ t, b ∈ r.typed t ↔ t = bean.type ∨ t ∈ es

variable {r : Registry} {b c : Nat} {bean : Bean} {exports : List TypeName}

theorem Presents.ne (h : r.Presents b bean exports) (hc : (r.status c).isSettled = false) : b ≠ c := by
  rintro rfl
  exact Bool.false_ne_true (hc.symm.trans h.settled)

theorem Presents.indexType (h : r.Presents b bean exports) (hbc : b ≠ c) (t : TypeName) :
    (r.indexType t c).Presents b bean exports where
  settled := h.settled
  exports := h.exports
  typed u := by
    rw [← h.typed, mem_typed, mem_typed]
    unfold Registry.indexType
    rw [List.mem_append, List.mem_singleton]
    exact or_iff_left fun he => hbc (Prod.mk.inj he).2

/-- A creation changes neither the exports nor the entries of any bean. -/
theorem Presents.created (h : r.Presents b bean exports) {s : Status} (hs : s.isSettled) (c : Nat) :
    (r.setStatus c s).Presents b bean exports where
  settled := by
    rw [status_setStatus]
    split
    · exact hs
    · exact h.settled
  exports := (exports_setStatus r c b s).trans h.exports
  typed := h.typed

theorem Presents.held (h : r.Presents b bean exports) (c : Nat) (i : Instance) :
    (r.setHeld c i).Presents b bean exports where
  settled := by
    rw [status_setHeld]
    exact h.settled
  exports := (exports_setHeld r c b i).trans h.exports
  typed := h.typed

theorem stays_presents (b : Nat) (bean : Bean) (exports : List TypeName) :
    Stays (Presents b bean exports) where
  setStatus r c s hc _ h :=
    ⟨(status_setStatus_of_ne r c b s (h.ne hc)).symm ▸ h.settled,
      (exports_setStatus r c b s).trans h.exports, h.typed⟩
  setExports r c es hc _ h :=
    ⟨(status_setExports r c b es).symm ▸ h.settled,
      (exports_setExports_of_ne r c b es (h.ne hc)).trans h.exports, h.typed⟩
  indexType _ _ t hc _ h := h.indexType (h.ne hc) t
  indexName _ _ _ _ _ h := ⟨h.settled, h.exports, h.typed⟩
  removeId _ _ h := ⟨h.settled, h.exports, h.typed⟩

end Registry

namespace Plan

variable {plan plan' : Plan} {b n : Nat} {r : Registry} {p : Progress}

/-- The bean is presented with the exports that it has by its composition and declarations. -/
def Exposed (plan : Plan) (b : Nat) (r : Registry) : Prop :=
  ∃ bean exports, plan.beans[b]? = some bean ∧ plan.exportsOf bean = .ok exports ∧
    r.Presents b bean exports

theorem stays_exposed (b : Nat) : Stays (plan.Exposed b) where
  setStatus r c s hc hd := fun ⟨bean, es, hb, he, h⟩ =>
    ⟨bean, es, hb, he, (Registry.stays_presents b bean es).setStatus r c s hc hd h⟩
  setExports r c us hc hd := fun ⟨bean, es, hb, he, h⟩ =>
    ⟨bean, es, hb, he, (Registry.stays_presents b bean es).setExports r c us hc hd h⟩
  indexType r c t hc hd := fun ⟨bean, es, hb, he, h⟩ =>
    ⟨bean, es, hb, he, (Registry.stays_presents b bean es).indexType r c t hc hd h⟩
  indexName r c name hc hd := fun ⟨bean, es, hb, he, h⟩ =>
    ⟨bean, es, hb, he, (Registry.stays_presents b bean es).indexName r c name hc hd h⟩
  removeId r id := fun ⟨bean, es, hb, he, h⟩ =>
    ⟨bean, es, hb, he, (Registry.stays_presents b bean es).removeId r id h⟩

/-- A settled bean whose entries are those of an index that fits the marks. -/
theorem Indexed.exposed (h : plan.Indexed r) {bean : Bean} (hbean : plan.beans[b]? = some bean)
    (hb : (r.status b).isSettled) : plan.Exposed b r := by
  refine ⟨bean, r.exports b, hbean, h.exports b bean hbean hb, hb, rfl, fun t => ?_⟩
  rw [h.mem_typed, selects, hbean]
  simp [hb, Selector.matchesBean, eq_comm (a := t)]

theorem persists_exposed (b : Nat) : plan.Persists fun p =>
    plan.Indexed p.registry ∧ Hence (· = .status b .resolved) (plan.Exposed b) p := by
  refine persists_hence (stays_exposed b) (fun e _ he => ⟨b, .inr he⟩)
    (fun _ _ _ _ he => by cases he) fun p c bean exports hbean hc hindexed he => ?_
  cases he
  refine hindexed.exposed hbean ?_
  rw [status_settle_self b bean exports p hc]
  rfl

/-! ### Lookups of a settled bean -/

section
variable {m : Mark} (hm : m.status.isSettled)
include hm

theorem scan_of_settled (n : Nat) (sel : Selector) :
    ∀ (bs : List Nat) (p : Progress), p.registry.marks[b]? = some m →
      After (plan.scan (plan.resolve n) sel bs) p fun x _ => ∀ found, x = .ok found →
        (b ∈ found ↔ b ∈ bs ∧ (plan.beans[b]?).any (sel.matchesBean · m.exports))
  | [], p, _ => by
    intro found hfound
    cases hfound
    simp
  | c :: bs, p, hp => by
    have hstatus : ∀ {r : Registry}, r.marks[b]? = some m → r.status b = m.status := by
      intro r hr
      rw [Registry.status, hr]
      rfl
    rw [scan, after_bind, after_get, continues_ok]
    split
    · rename_i hc
      have hbc : b ≠ c := by
        rintro rfl
        rw [← hstatus hp, hc] at hm
        cases hm
      rw [after_bind, after_modify, continues_ok]
      refine (scan_of_settled n sel bs (p.note _) hp).mono fun x q hq found hfound => ?_
      rw [hq found hfound, List.mem_cons, or_iff_right hbc]
    · rw [after_bind]
      have hbegun : m.status ≠ .fresh := by
        rintro hf
        rw [hf] at hm
        cases hm
      refine (resolve_keeps_mark hbegun n c p hp).mono fun x q hq => ?_
      cases x with
      | error cause =>
        intro found hfound
        cases hfound
      | ok _ =>
        have hq : q.registry.marks[b]? = some m := hq
        rw [continues_ok, after_bind, after_get, continues_ok, after_bind]
        refine (scan_of_settled n sel bs q hq).mono fun x t ht => ?_
        cases x with
        | error cause =>
          intro found hfound
          cases hfound
        | ok rest =>
          intro found hfound
          cases hfound
          have hrest := ht rest rfl
          by_cases hbc : b = c
          · subst hbc
            have hdel : q.registry.status b ≠ .deleted := by
              rw [hstatus hq]
              exact Status.ne_deleted_of_isSettled hm
            have hselects : plan.selects q.registry sel b =
                (plan.beans[b]?).any (sel.matchesBean · m.exports) := by
              rw [selects, Registry.exports, hq]
              rfl
            rw [hselects]
            split
            · rename_i h
              simp [h.2]
            · rename_i h
              have hno : (plan.beans[b]?).any (sel.matchesBean · m.exports) = false := by
                rw [Bool.eq_false_iff]
                exact fun hyes => h ⟨hdel, hyes⟩
              rw [hrest, hno]
              simp
          · rw [List.mem_cons, or_iff_right hbc, ← hrest]
            split
            · rw [List.mem_cons, or_iff_right hbc]
            · rfl

end

/-- A lookup by type, at any depth of resolutions, finds a settled bean under its own type
and its exports. -/
theorem findWith_of_presents {bean : Bean} {exports : List TypeName} (hbean : plan.beans[b]? = some bean)
    (hmay : ∀ t ∈ exports, bean.mayProvide t) (h : p.registry.Presents b bean exports) (n : Nat)
    (t : TypeName) :
    After (plan.findWith (plan.resolve n) (.type t)) p fun x _ => ∀ found, x = .ok found →
      (b ∈ found ↔ t = bean.type ∨ t ∈ exports) := by
  have hactive : b ∈ p.registry.active :=
    Registry.mem_active.mpr (Status.ne_deleted_of_isSettled h.settled)
  obtain ⟨m, hm⟩ : ∃ m, p.registry.marks[b]? = some m :=
    ⟨_, List.getElem?_eq_getElem (Registry.lt_length_of_status (Registry.mem_active.mp hactive))⟩
  have hsettled : m.status.isSettled := by
    have := h.settled
    rwa [Registry.status, hm] at this
  have hexports : m.exports = exports := by
    rw [← h.exports, Registry.exports, hm]
    rfl
  have hmatches : (plan.beans[b]?).any ((Selector.type t).matchesBean · m.exports) ↔
      t = bean.type ∨ t ∈ exports := by
    rw [hbean, hexports]
    simp [Selector.matchesBean, eq_comm (a := t)]
  have hcandidate : t = bean.type ∨ t ∈ exports → b ∈ plan.candidates p.registry (.type t) := by
    intro ht
    refine List.mem_filter.mpr ⟨hactive, ?_⟩
    unfold mayMatch
    rw [hbean]
    show bean.mayProvide t
    rcases ht with rfl | ht
    · unfold Bean.mayProvide
      simp
    · exact hmay t ht
  unfold findWith
  rw [after_bind, after_get, continues_ok, after_bind]
  refine (scan_of_settled hsettled n (.type t) _ p hm).mono fun x q hq => ?_
  cases x with
  | error cause =>
    intro found hfound
    cases hfound
  | ok found =>
    rw [continues_ok, after_bind, after_modify, continues_ok]
    intro found hfound
    cases hfound
    rw [hq found rfl, hmatches]
    exact and_iff_right_of_imp hcandidate

/-! ### Wirings -/

/-- The beans that have been resolved are exposed ever since, and either all have begun or
the index fits the marks. -/
structure Exhibits (plan : Plan) (p : Progress) : Prop where
  ready : p.registry.Calm ∨ plan.Indexed p.registry
  exposed : ∀ b, Hence (· = .status b .resolved) (plan.Exposed b) p

theorem hence_exposed_note {e : Event} (he : e.IsAloof)
    (h : ∀ b, Hence (· = .status b .resolved) (plan.Exposed b) p) (b : Nat) :
    Hence (· = .status b .resolved) (plan.Exposed b) (p.note e) :=
  (h b).note fun hE => by
    rw [hE] at he
    exact he.elim

theorem Exhibits.remarked {q : Progress} (h : ∀ b, Hence (· = .status b .resolved) (plan.Exposed b) p)
    (hq : p.Remarked q) (b : Nat) : Hence (· = .status b .resolved) (plan.Exposed b) q := by
  induction hq with
  | refl => exact h b
  | note _ he ih =>
    refine ih.note fun hE => ?_
    rw [hE] at he
    exact he.elim

/-- Wirings with any injector, of any beans. -/
theorem endures_exposed : plan.Endures (fun a => a.registry.Calm ∧
    ∀ b, Hence (· = .status b .resolved) (plan.Exposed b) a.progress) fun _ => True where
  progress a a' h ha := by rwa [Assembly.registry, h]
  note a e he ha := ⟨ha.1, hence_exposed_note he.isReport.isAloof ha.2⟩
  handed a b _ ha := ⟨ha.1, fun c => (ha.2 c).note fun he => by cases he⟩
  received a asker b _ ha := ⟨ha.1, fun c => (ha.2 c).note fun he => by cases he⟩
  count a n ha := ⟨ha.1, fun c => ⟨(ha.2 c).current, (ha.2 c).since⟩⟩
  begin a b _ ha := by
    refine ⟨ha.1.setStatus (by decide), fun c => ((ha.2 c).update fun h => ?_).note fun he => by cases he⟩
    obtain ⟨bean, es, hb, he, h⟩ := h
    exact ⟨bean, es, hb, he, h.created rfl b⟩
  hold a b i _ ha := by
    have hheld : (a.registry.setHeld b i).Calm := fun c => by
      rw [Registry.status_setHeld]
      exact ha.1 c
    refine ⟨hheld.setStatus (by decide), fun c =>
      ((ha.2 c).update fun h => ?_).note fun he => by cases he⟩
    obtain ⟨bean, es, hb, he, h⟩ := h
    exact ⟨bean, es, hb, he, (h.held b i).created rfl b⟩
  find sel a ha := by
    rw [after_ofResolving]
    refine (find_of_calm ha.1 sel).mono fun x q hq => ⟨⟨?_, Exhibits.remarked ha.2 hq.1⟩,
      fun _ _ _ _ => trivial⟩
    rw [Assembly.registry, hq.1.registry]
    exact ha.1
  reach _ _ _ _ := trivial

theorem refresh_exhibits (h : Container.Frozen plan p) (configurations : List Configuration) :
    After (plan.refresh configurations) (.start p) fun _ t => plan.Exhibits t.progress := by
  have hnone : ∀ b, Hence (· = .status b .resolved) (plan.Exposed b) p := fun b =>
    .of_none fun e he hE => by
      have := h.aside e he
      rw [hE] at this
      exact this.elim
  have hkept := (resolveAll_keeps (Persists.all persists_exposed)).after fun b => ⟨h.indexed, hnone b⟩
  have hcalm : After plan.resolveAll p _ := resolveAll_calm h.indexed.length
  refine refresh_keeps configurations ((hkept.and hcalm).mono fun x q ⟨hq, hcalm⟩ => ?_)
  cases x with
  | error cause => exact ⟨.inr (hq 0).1, fun b => (hq b).2⟩
  | ok _ =>
    exact ⟨_, endures_exposed.outlasts (fun a e he ha => ⟨ha.1, hence_exposed_note he.isAloof ha.2⟩)
        fun a ha b hb => .inl trivial,
      ⟨hcalm rfl, fun b => (hq b).2.note nofun⟩, fun a ha => ⟨.inl ha.1, ha.2⟩⟩

theorem find_exhibits (h : plan.Exhibits p) (sel : Selector) :
    After (plan.find sel) p fun _ q => plan.Exhibits q := by
  rcases h.ready with hcalm | hindexed
  · refine (find_of_calm hcalm sel).mono fun _ q ⟨hq, _⟩ => ⟨.inl ?_, Exhibits.remarked h.exposed hq⟩
    rwa [hq.registry]
  · have hkept := (find_keeps (Persists.all persists_exposed) sel).after
      fun b => ⟨hindexed, h.exposed b⟩
    exact hkept.mono fun _ q hq => ⟨.inr (hq 0).1, fun b => (hq b).2⟩

/-- Of the plan only the beans and the compositions matter. -/
theorem Exhibits.congr (h : plan.Exhibits p) (hb : plan'.beans = plan.beans)
    (hc : plan'.compositions = plan.compositions) : plan'.Exhibits p := by
  obtain ⟨beans, properties, compositions, injector, cancelled⟩ := plan
  obtain ⟨beans', properties', compositions', injector', cancelled'⟩ := plan'
  cases hb
  cases hc
  exact ⟨h.ready.imp_right fun hi => hi.congr rfl rfl, h.exposed⟩

end Plan

/-! ### Containers -/

namespace Container

theorem lasts_exhibits : Lasts Plan.Exhibits where
  congr _ _ hb hc _ _ h := h.congr hb hc
  note he h := ⟨h.ready, Plan.hence_exposed_note he.isAloof h.exposed⟩
  start h := ⟨.inr h.indexed, fun b => .of_none fun e he hE => by
    have := h.aside e he
    rw [hE] at this
    exact this.elim⟩
  refresh h configurations := Plan.refresh_exhibits h configurations
  find sel h := Plan.find_exhibits h sel

theorem performAll_compositions (injector : Injector) (compositions : Compositions)
    (ops : List Operation) :
    ((empty injector compositions).performAll ops).2.compositions = compositions := by
  refine performAll_keeps (P := fun c => c.compositions = compositions) (fun c c' hu hc => ?_) ops
    _ rfl
  rw [← hc]
  cases hu with
  | nothing alike _ => exact alike.compositions
  | noted alike _ _ _ => exact alike.compositions
  | refused _ _ _ => rw [c.freeze_spec]
  | refreshed _ _ =>
    have hfrozen : c.freeze.2.compositions = c.compositions := by rw [c.freeze_spec]
    rw [← hfrozen]
    rcases complete_spec c.freeze.2 with ⟨ds, -, hd⟩ | ⟨e, p, -, -, hd⟩ <;> rw [hd]
  | found _ _ => rfl
  | closed hr =>
    unfold close
    rw [hr]
    rfl

/-- To collect the exports of a composition always comes to an end. It succeeds if and only
if every reachable field that exports has an interface for its type and is not injected, and
no reachable field opens a part that is inside itself; a part that is embedded several
times does no harm. Then it comes to the types of the reachable fields that export. So a
composite bean is, since it was resolved, in the index of its own type, of the types that it
declares and of these, and of no other; and lookups by type find it under them. -/
theorem composite_provides (injector : Injector) (compositions : Compositions)
    (ops : List Operation) :
    (∀ fields : List Field,
      (∀ beyond, walkBeyond beyond compositions (compositions.fields.length + 2) [] fields [] =
        autoExport compositions fields) ∧
      ((∃ ts, autoExport compositions fields = .ok ts) ↔
        (∀ f, Reachable compositions fields f → f.exported → f.type.isInterface ∧ ¬ f.injected) ∧
        ∀ f, Reachable compositions fields f → f.Opens →
          ¬ Relation.TransGen (Embeds compositions) f.type f.type) ∧
      ∀ ts, autoExport compositions fields = .ok ts → Ascending ts ∧
        ∀ t, t ∈ ts ↔ ∃ f, Reachable compositions fields f ∧ f.exported ∧ f.type = t) ∧
    let c := ((empty injector compositions).performAll ops).2
    ∀ later m earlier b, c.progress.history = later ++ m :: earlier → m.event = .status b .resolved →
      ∃ bean, c.beans[b]? = some bean ∧ (bean.composite →
        (∀ r, (r = c.registry ∨ r = m.registry ∨ ∃ m' ∈ later, r = m'.registry) → ∀ t,
          (b ∈ r.typed t ↔ t = bean.type ∨ t ∈ bean.exports ∨
            Offers compositions (compositions.of bean.type) t) ∧
          ∀ (plan : Plan) (p : Progress) (n : Nat), plan.beans = c.beans → p.registry = r →
            After (plan.findWith (plan.resolve n) (.type t)) p fun x _ => ∀ found, x = .ok found →
              (b ∈ found ↔ t = bean.type ∨ t ∈ bean.exports ∨
                Offers compositions (compositions.of bean.type) t)) ∧
        ∀ t found, (c.find (.type t)).1 = .ok (.ok found) →
          (b ∈ found ↔ t = bean.type ∨ t ∈ bean.exports ∨
            Offers compositions (compositions.of bean.type) t)) := by
  refine ⟨fun fields => ⟨fun beyond => autoExport_eq_walkBeyond beyond compositions fields,
    autoExport_ok_iff.trans ⟨fun h => ⟨h.interface, h.acyclic⟩, fun h => ⟨h.1, h.2⟩⟩,
    fun ts h => ⟨autoExport_ascending h, mem_autoExport h⟩⟩, ?_⟩
  intro c later m earlier b hp hm
  have h : Has _ c := performAll_lasts lasts_exhibits injector compositions ops
  have hcompositions : c.compositions = compositions :=
    performAll_compositions injector compositions ops
  have hin : m ∈ c.progress.history := by simp [hp]
  have hn : c.phase ≠ .unrefreshed := h.begun hin (by rw [hm]; exact id)
  have hexposed : ∀ r, (r = c.registry ∨ r = m.registry ∨ ∃ m' ∈ later, r = m'.registry) →
      c.plan.Exposed b r := fun r hr => ((h.since hn).exposed b).of_moment hp hm hr
  obtain ⟨bean, exports, hbean, he, hnow⟩ := hexposed c.registry (.inl rfl)
  have hpresents : ∀ r, (r = c.registry ∨ r = m.registry ∨ ∃ m' ∈ later, r = m'.registry) →
      r.Presents b bean exports := by
    intro r hr
    obtain ⟨bean', exports', hbean', he', hr⟩ := hexposed r hr
    cases Option.some.inj (hbean.symm.trans hbean')
    cases Except.ok.inj (he.symm.trans he')
    exact hr
  refine ⟨bean, hbean, fun hc => ?_⟩
  have hprovided : ∀ t, t = bean.type ∨ t ∈ exports ↔ t = bean.type ∨ t ∈ bean.exports ∨
      Offers compositions (compositions.of bean.type) t := by
    intro t
    rw [c.plan.mem_exportsOf he hc t, show c.plan.compositions = compositions from hcompositions]
  have hfind : ∀ r, (r = c.registry ∨ r = m.registry ∨ ∃ m' ∈ later, r = m'.registry) →
      ∀ (plan : Plan) (p : Progress) (n : Nat) t, plan.beans = c.beans → p.registry = r →
        After (plan.findWith (plan.resolve n) (.type t)) p fun x _ => ∀ found, x = .ok found →
          (b ∈ found ↔ t = bean.type ∨ t ∈ exports) := by
    rintro r hr plan p n t hbeans rfl
    exact Plan.findWith_of_presents (by rw [hbeans]; exact hbean)
      (fun u hu => Plan.mayProvide_of_mem he hu) (hpresents _ hr) n t
  refine ⟨fun r hr t => ?_, fun t found hfound => ?_⟩
  · simp only [← hprovided]
    exact ⟨(hpresents r hr).typed t, fun plan p n hbeans hr' => hfind r hr plan p n t hbeans hr'⟩
  · rw [← hprovided]
    cases hphase : c.phase with
    | unrefreshed => exact absurd hphase hn
    | refreshed =>
      unfold find at hfound
      rw [hphase] at hfound
      cases hfound
      exact hnow.typed t
    | refreshing =>
      have hscan := hfind c.registry (.inl rfl) c.plan c.progress c.plan.beans.length t rfl rfl
      unfold find at hfound
      rw [hphase] at hfound
      exact hscan found (Except.ok.inj hfound)

/-- A service that embeds the same part twice, and the interface that the part exports. -/
def twofold : Compositions where
  fields := [(.of "app::Service", [⟨"left", .of "app::Part", true, false, false⟩,
      ⟨"right", .of "app::Part", true, false, false⟩]),
    (.of "app::Part", [⟨"deep", .of "dyn app::Deep", false, true, false⟩])]

def twofoldService : Bean :=
  { Bean.plain (.of "app::Service") (.main 1) (.constructor ⟨[], .part, "service", none⟩) with
    composite := true }.declareCast (.of "dyn app::Deep") .itself

theorem composite_provides_of_twofold :
    let c := ((empty .standard twofold).performAll [.register twofoldService, .refresh]).2
    ∀ t, 0 ∈ c.registry.typed t ↔ t = (.of "app::Service") ∨ t = (.of "dyn app::Deep") := by
  obtain ⟨hexports, hprovides⟩ :=
    composite_provides .standard twofold [.register twofoldService, .refresh]
  have hany : ((empty .standard twofold).performAll
      [.register twofoldService, .refresh]).2.progress.history.any
        fun m => m.event.resolved? = some 0 := by decide +kernel
  have hbean : (((empty .standard twofold).performAll
      [.register twofoldService, .refresh]).2.beans[0]?.map fun bean =>
        (bean.type, bean.exports, bean.composite)) = some (.of "app::Service", [], true) := by
    decide +kernel
  have hoffers : autoExport twofold (twofold.of (.of "app::Service")) = .ok [.of "dyn app::Deep"] := by
    decide +kernel
  obtain ⟨⟨e, r⟩, hin, he⟩ := List.any_eq_true.mp hany
  obtain ⟨later, earlier, hhistory⟩ := List.append_of_mem hin
  have hresolved : e = .status 0 .resolved := Event.resolved?_eq_some (of_decide_eq_true he)
  obtain ⟨bean, hbean', hbean''⟩ := hprovides later _ earlier 0 hhistory hresolved
  rw [hbean'] at hbean
  obtain ⟨htype, hdeclared, hcomposite⟩ : bean.type = (.of "app::Service") ∧ bean.exports = [] ∧
      bean.composite = true := by simpa using hbean
  intro c t
  rw [((hbean'' hcomposite).1 c.registry (.inl rfl) t).1, htype, hdeclared,
    ← mem_autoExport hoffers]
  simp

end Container
end Inversion
