/-
# The answers of lookups

A bean is settled once it is resolved and not deleted. Settled beans stay settled
with their exports, and deleted ones stay deleted (`Later`). A lookup that succeeds
has resolved all its candidates, those that were being resolved when it began apart.
So it finds exactly the other beans that match with their final exports and are not
deleted (`Moment.Exact`), although the filter of candidates runs before their exports
are known (`mayMatch_of_matches`).

`Faithful` says this of all lookups of a history. Resolutions keep it, at any depth of
lookups inside conditions (`resolve_faithful`), as long as no condition goes on after
a failed lookup to an answer: then the bean would be done, with others still being
resolved.
-/
import Inversion.Proofs.Composition
import Inversion.Proofs.Resolution

namespace Inversion

/-! ### Settled beans -/

theorem Status.ne_deleted_of_isSettled {s : Status} (h : s.isSettled) : s ≠ .deleted := by
  rintro rfl
  cases h

namespace Registry

/-- What is settled or deleted in a registry is so in the other. -/
structure Later (r r' : Registry) : Prop where
  settled : ∀ b, (r.status b).isSettled → (r'.status b).isSettled ∧ r'.exports b = r.exports b
  deleted : ∀ b, r.status b = .deleted → r'.status b = .deleted

variable {r r' r'' : Registry} {b : Nat}

theorem Later.refl (r : Registry) : Later r r :=
  ⟨fun _ h => ⟨h, rfl⟩, fun _ h => h⟩

theorem Later.trans (h : Later r r') (h' : Later r' r'') : Later r r'' where
  settled b hb := by
    obtain ⟨hs, he⟩ := h.settled b hb
    obtain ⟨hs', he'⟩ := h'.settled b hs
    exact ⟨hs', he'.trans he⟩
  deleted b hb := h'.deleted b (h.deleted b hb)

theorem Later.of_same (hs : ∀ b, r'.status b = r.status b) (he : ∀ b, r'.exports b = r.exports b) :
    Later r r' :=
  ⟨fun b hb => ⟨by rwa [hs], he b⟩, fun b hb => by rwa [hs]⟩

theorem Later.of_marks (h : r'.marks = r.marks) : Later r r' :=
  .of_same (fun b => by rw [status, h, status]) fun b => by rw [exports, h, exports]

/-- A settled bean that stays settled. -/
theorem Later.of_settled {s : Status} (hb : (r.status b).isSettled) (hs : s.isSettled) :
    Later r (r.setStatus b s) where
  settled c hc := by
    refine ⟨?_, exports_setStatus r b c s⟩
    rw [status_setStatus]
    split
    · exact hs
    · exact hc
  deleted c hc := by
    have hcb : c ≠ b := by
      rintro rfl
      exact Status.ne_deleted_of_isSettled hb hc
    rwa [status_setStatus_of_ne r b c s hcb]

/-- A change to a bean that is neither settled nor deleted. -/
theorem Later.of_pending (hs : (r.status b).isSettled = false) (hd : r.status b ≠ .deleted)
    (hstatus : ∀ c, c ≠ b → r'.status c = r.status c)
    (hexports : ∀ c, c ≠ b → r'.exports c = r.exports c) : Later r r' where
  settled c hc := by
    have hcb : c ≠ b := by
      rintro rfl
      rw [hs] at hc
      cases hc
    exact ⟨by rwa [hstatus c hcb], hexports c hcb⟩
  deleted c hc := by
    have hcb : c ≠ b := by
      rintro rfl
      exact hd hc
    rwa [hstatus c hcb]

theorem mem_resolving : b ∈ r.resolving ↔ r.status b = .resolving := by
  unfold resolving
  rw [List.mem_filter, List.mem_range, decide_eq_true_eq]
  exact ⟨fun h => h.2, fun h => ⟨lt_length_of_status_eq h (by decide), h⟩⟩

end Registry

/-! ### Matches -/

namespace Plan

variable {plan : Plan}

/-- A type of the final exports was declared, or the bean is composite. -/
theorem mayProvide_of_mem {bean : Bean} {exports : List TypeName}
    (h : plan.exportsOf bean = .ok exports) {t : TypeName} (ht : t ∈ exports) :
    bean.mayProvide t := by
  unfold Bean.mayProvide
  obtain ⟨⟨offered, -, rfl, hoffered, -⟩, -⟩ := exportsOf_eq_ok h
  cases hc : bean.composite with
  | true => simp
  | false =>
    rw [hoffered hc, mem_foldr_insertType] at ht
    have hdeclared : t ∈ bean.exports := ht.resolve_right List.not_mem_nil
    simp [hdeclared]

/-- The filter of candidates drops no bean that would match. -/
theorem mayMatch_of_matches {bean : Bean} {exports : List TypeName} {sel : Selector}
    (h : plan.exportsOf bean = .ok exports) (hm : sel.matchesBean bean exports) :
    sel.mayMatch bean := by
  have hprovide : ∀ t : TypeName, bean.type == t || exports.contains t → bean.mayProvide t := by
    intro t ht
    rcases (Bool.or_eq_true _ _).mp ht with ht | ht
    · unfold Bean.mayProvide
      simp [ht]
    · exact mayProvide_of_mem h (List.contains_iff_mem.mp ht)
  cases sel with
  | name n => exact hm
  | type t => exact hprovide t hm
  | typedName t n =>
    obtain ⟨hn, ht⟩ := (Bool.and_eq_true _ _).mp hm
    exact (Bool.and_eq_true _ _).mpr ⟨hn, hprovide t ht⟩
  | parsed text n => exact ((Bool.and_eq_true _ _).mp hm).1

/-- Whether a bean matches with its final exports. -/
def answers (plan : Plan) (sel : Selector) (bean : Bean) : Bool :=
  match plan.exportsOf bean with
  | .ok exports => sel.matchesBean bean exports
  | .error _ => false

theorem mayMatch_of_answers {sel : Selector} {bean : Bean} (h : plan.answers sel bean) :
    sel.mayMatch bean := by
  unfold answers at h
  cases he : plan.exportsOf bean with
  | error e =>
    rw [he] at h
    cases h
  | ok exports =>
    rw [he] at h
    exact mayMatch_of_matches he h

def answersTo (plan : Plan) (sel : Selector) (b : Nat) : Bool :=
  (plan.beans[b]?).any (plan.answers sel)

theorem mayMatch_of_answersTo {sel : Selector} {b : Nat} (h : plan.answersTo sel b) :
    plan.mayMatch sel b := by
  unfold answersTo at h
  unfold mayMatch
  rw [Option.any_eq_true] at h ⊢
  obtain ⟨bean, hb, hm⟩ := h
  exact ⟨bean, hb, mayMatch_of_answers hm⟩

theorem lt_length_of_answersTo {sel : Selector} {b : Nat} (h : plan.answersTo sel b) :
    b < plan.beans.length := by
  obtain ⟨bean, hbean, -⟩ := (Option.any_eq_true _ _).mp h
  exact (List.getElem?_eq_some_iff.mp hbean).1

/-! ### Faithful histories -/

/-- Settled beans have their final exports. -/
structure Sound (plan : Plan) (r : Registry) : Prop where
  length : r.marks.length = plan.beans.length
  exports : ∀ b bean, plan.beans[b]? = some bean → (r.status b).isSettled →
    plan.exportsOf bean = .ok (r.exports b)

theorem Sound.exists_bean {r : Registry} (h : plan.Sound r) {b : Nat} (hb : r.status b ≠ .deleted) :
    ∃ bean, plan.beans[b]? = some bean :=
  ⟨_, List.getElem?_eq_getElem (h.length ▸ Registry.lt_length_of_status hb)⟩

theorem Sound.answersTo {r : Registry} (h : plan.Sound r) {b : Nat} (hb : (r.status b).isSettled)
    (sel : Selector) : plan.selects r sel b = plan.answersTo sel b := by
  unfold selects Plan.answersTo answers
  cases hbean : plan.beans[b]? with
  | none => rfl
  | some bean => simp [h.exports b bean hbean hb]

theorem selects_of_later {r r' : Registry} (h : r.Later r') {b : Nat} (hb : (r.status b).isSettled)
    (sel : Selector) : plan.selects r' sel b = plan.selects r sel b := by
  unfold selects
  rw [(h.settled b hb).2]

end Plan

def Event.IsLookup : Event → Prop
  | lookedUp _ _ _ => True
  | _ => False

/-- A lookup has found the beans that were not being resolved when it began, are not
deleted and match with their final exports, in the order of registration. -/
def Moment.Exact (plan : Plan) (m : Moment) : Prop :=
  ∀ sel away found, m.event = .lookedUp sel away found →
    found = (List.range plan.beans.length).filter (fun b =>
      b ∉ away ∧ m.registry.status b ≠ .deleted ∧ plan.answersTo sel b) ∧
    ∀ b ∈ found, (m.registry.status b).isSettled

theorem Moment.exact_of_not_isLookup {plan : Plan} {m : Moment} (h : ¬ m.event.IsLookup) :
    m.Exact plan := fun _ _ _ he => absurd (by rw [he]; trivial) h

/-- All lookups of the history are exact, and what they found stays. -/
structure Faithful (plan : Plan) (p : Progress) : Prop where
  sound : plan.Sound p.registry
  exact : ∀ m ∈ p.history, m.Exact plan
  current : ∀ m ∈ p.history, m.event.IsLookup → m.registry.Later p.registry
  chained : p.history.Pairwise fun m m' => m'.event.IsLookup → m'.registry.Later m.registry

namespace Faithful

variable {plan : Plan} {p : Progress} {b : Nat}

/-- Nothing has been looked up before the beans are resolved. -/
theorem of_new (hr : p.registry = Registry.ofBeans plan.beans)
    (hnew : ∀ m ∈ p.history, ¬ m.event.IsLookup) : Faithful plan p where
  sound := by
    refine ⟨by rw [hr]; exact List.length_map .., fun b bean _ hb => ?_⟩
    rw [hr, Registry.status_ofBeans] at hb
    split at hb <;> cases hb
  exact m hm := Moment.exact_of_not_isLookup (hnew m hm)
  current m hm hl := absurd hl (hnew m hm)
  chained := List.pairwise_of_forall_mem_list fun _ _ m' hm' hl => absurd hl (hnew m' hm')

theorem noteExact (h : Faithful plan p) {e : Event} (he : Moment.Exact plan ⟨e, p.registry⟩) :
    Faithful plan (p.note e) where
  sound := h.sound
  exact := List.forall_mem_cons.mpr ⟨he, h.exact⟩
  current := List.forall_mem_cons.mpr ⟨fun _ => .refl _, h.current⟩
  chained := List.pairwise_cons.mpr ⟨h.current, h.chained⟩

theorem note (h : Faithful plan p) {e : Event} (he : ¬ e.IsLookup) : Faithful plan (p.note e) :=
  h.noteExact (Moment.exact_of_not_isLookup he)

/-- What a lookup of the history found is settled ever since, and matches. -/
theorem stays (h : Faithful plan p) {later earlier : List Moment} {m : Moment} {sel : Selector}
    {away found : List Nat} (hp : p.history = later ++ m :: earlier)
    (hm : m.event = .lookedUp sel away found) {c : Nat} (hc : c ∈ found) {r : Registry}
    (hr : r = p.registry ∨ ∃ m' ∈ later, r = m'.registry) :
    (r.status c).isSettled ∧ plan.selects r sel c := by
  have hin : m ∈ p.history := by rw [hp]; simp
  have hlook : m.event.IsLookup := by rw [hm]; trivial
  obtain ⟨hfound, hsettled⟩ := h.exact m hin sel away found hm
  have hcurrent := h.current m hin hlook
  have hs := hsettled c hc
  have hanswers : plan.answersTo sel c := by
    rw [hfound, List.mem_filter, decide_eq_true_eq] at hc
    exact hc.2.2.2
  have hlater : m.registry.Later r := by
    rcases hr with rfl | ⟨m', hm', rfl⟩
    · exact hcurrent
    · have hchained := h.chained
      rw [hp, List.pairwise_append] at hchained
      exact hchained.2.2 m' hm' m List.mem_cons_self hlook
  refine ⟨(hlater.settled c hs).1, ?_⟩
  rw [Plan.selects_of_later hlater hs, ← Plan.selects_of_later hcurrent hs,
    h.sound.answersTo (hcurrent.settled c hs).1]
  exact hanswers

theorem update (h : Faithful plan p) {r : Registry} (hl : p.registry.Later r) (hs : plan.Sound r) :
    Faithful plan { p with registry := r } where
  sound := hs
  exact := h.exact
  current m hm hlook := (h.current m hm hlook).trans hl
  chained := h.chained

theorem setStatus (h : Faithful plan p) {s : Status} (hl : p.registry.Later (p.registry.setStatus b s))
    (hs : plan.Sound (p.registry.setStatus b s)) : Faithful plan (p.setStatus b s) :=
  (h.update hl hs).note id

/-- A bean that is not settled may be begun, or deleted. -/
theorem setPending (h : Faithful plan p) {s : Status} (hb : (p.registry.status b).isSettled = false)
    (hd : p.registry.status b ≠ .deleted) (hs : s.isSettled = false) :
    Faithful plan (p.setStatus b s) := by
  have hlater : p.registry.Later (p.registry.setStatus b s) :=
    .of_pending hb hd (fun c hc => Registry.status_setStatus_of_ne _ b c s hc)
      fun c _ => Registry.exports_setStatus _ b c s
  refine h.setStatus hlater ⟨?_, fun c bean hbean hc => ?_⟩
  · rw [Registry.length_setStatus]
    exact h.sound.length
  · rw [Registry.exports_setStatus]
    refine h.sound.exports c bean hbean ?_
    rw [Registry.status_setStatus] at hc
    split at hc
    · rw [hs] at hc
      cases hc
    · exact hc

/-- A settled bean may be created, and wired. -/
theorem setSettled (h : Faithful plan p) {s : Status} (hb : (p.registry.status b).isSettled)
    (hs : s.isSettled) : Faithful plan (p.setStatus b s) := by
  refine h.setStatus (.of_settled hb hs) ⟨?_, fun c bean hbean hc => ?_⟩
  · rw [Registry.length_setStatus]
    exact h.sound.length
  · rw [Registry.exports_setStatus]
    refine h.sound.exports c bean hbean ?_
    rw [Registry.status_setStatus] at hc
    split at hc
    · rename_i hcb
      rwa [hcb.1]
    · exact hc

theorem setHeld (h : Faithful plan p) (b : Nat) (i : Instance) :
    Faithful plan { p with registry := p.registry.setHeld b i } := by
  refine h.update (.of_same (fun c => Registry.status_setHeld _ b c i)
    fun c => Registry.exports_setHeld _ b c i) ⟨?_, fun c bean hbean hc => ?_⟩
  · rw [Registry.length_setHeld]
    exact h.sound.length
  · rw [Registry.status_setHeld] at hc
    rw [Registry.exports_setHeld]
    exact h.sound.exports c bean hbean hc

theorem discard (h : Faithful plan p) (hb : p.registry.status b = .resolving) :
    Faithful plan (plan.discard b p) := by
  have hremoved : Faithful plan { p with registry := p.registry.removeId (plan.idOf b) } :=
    h.update (.of_marks rfl) ⟨h.sound.length, h.sound.exports⟩
  have hb : (p.registry.removeId (plan.idOf b)).status b = .resolving := hb
  exact (hremoved.setPending (by rw [hb]; rfl) (by rw [hb]; decide) rfl).note id

/-- Indexing changes no mark and looks nothing up. -/
theorem index (h : Faithful plan p) (b : Nat) (bean : Bean) (exports : List TypeName) :
    Faithful plan (Plan.index b bean exports p) := by
  obtain ⟨hmarks, ms, hhistory, hms⟩ := Plan.index_spec b bean exports p
  have hlook : ∀ m ∈ ms, ¬ m.event.IsLookup := by
    intro m hm hl
    have hi := (hms m hm).1
    cases he : m.event <;> rw [he] at hi hl <;> first | exact hi | exact hl
  have hlater : p.registry.Later (Plan.index b bean exports p).registry := .of_marks hmarks
  refine ⟨⟨?_, fun c bean' hbean hc => ?_⟩, ?_, ?_, ?_⟩
  · rw [hmarks]
    exact h.sound.length
  · rw [Registry.exports, hmarks]
    rw [Registry.status, hmarks] at hc
    exact h.sound.exports c bean' hbean hc
  · rw [hhistory]
    intro m hm
    rcases List.mem_append.mp hm with hm | hm
    · exact Moment.exact_of_not_isLookup (hlook m hm)
    · exact h.exact m hm
  · rw [hhistory]
    intro m hm hl
    rcases List.mem_append.mp hm with hm | hm
    · exact absurd hl (hlook m hm)
    · exact (h.current m hm hl).trans hlater
  · rw [hhistory, List.pairwise_append]
    refine ⟨?_, h.chained, fun m hm m' hm' hl => ?_⟩
    · exact List.pairwise_of_forall_mem_list fun m _ m' hm' hl => absurd hl (hlook m' hm')
    · exact (h.current m' hm' hl).trans (.of_marks (hms m hm).2)

theorem settle (h : Faithful plan p) (hb : p.registry.status b = .resolving) {bean : Bean}
    (hbean : plan.beans[b]? = some bean) {exports : List TypeName}
    (he : plan.exportsOf bean = .ok exports) : Faithful plan (Plan.settle b bean exports p) := by
  have hindexed := h.index b bean exports
  set q := Plan.index b bean exports p with hq
  have hqb : q.registry.status b = .resolving := by
    rw [Registry.status, hq, (Plan.index_spec b bean exports p).1]
    exact hb
  have hlt : b < q.registry.marks.length := Registry.lt_length_of_status_eq hqb (by decide)
  have hexports : Faithful plan { q with registry := q.registry.setExports b exports } := by
    refine hindexed.update (.of_pending (b := b) (by rw [hqb]; rfl) (by rw [hqb]; decide)
      (fun c _ => Registry.status_setExports _ b c exports)
      fun c hc => Registry.exports_setExports_of_ne _ b c exports hc) ⟨?_, fun c bean' hbean' hc => ?_⟩
    · rw [Registry.length_setExports]
      exact hindexed.sound.length
    · rw [Registry.status_setExports] at hc
      have hcb : c ≠ b := by
        rintro rfl
        rw [hqb] at hc
        cases hc
      rw [Registry.exports_setExports_of_ne _ b c exports hcb]
      exact hindexed.sound.exports c bean' hbean' hc
  have hsb : (q.registry.setExports b exports).status b = .resolving := by
    rw [Registry.status_setExports, hqb]
  refine hexports.setStatus (.of_pending (by rw [hsb]; rfl) (by rw [hsb]; decide)
    (fun c hc => Registry.status_setStatus_of_ne _ b c _ hc)
    fun c _ => Registry.exports_setStatus _ b c _) ⟨?_, fun c bean' hbean' hc => ?_⟩
  · rw [Registry.length_setStatus, Registry.length_setExports]
    exact hindexed.sound.length
  · rw [Registry.exports_setStatus]
    by_cases hcb : c = b
    · subst hcb
      cases Option.some.inj (hbean.symm.trans hbean')
      show plan.exportsOf bean = .ok ((q.registry.setExports c exports).exports c)
      rw [Registry.exports_setExports_self _ c exports hlt]
      exact he
    · rw [Registry.status_setStatus_of_ne _ b c _ hcb] at hc
      exact hexports.sound.exports c bean' hbean' hc

end Faithful
end Inversion
