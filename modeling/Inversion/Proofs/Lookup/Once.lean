/-
# Each bean is resolved once

A resolution that passes its guard begins its bean, which is fresh then and never again. So
over the whole history a bean is begun at most once, and its composition is walked at most
once (`Once`). It is walked behind the evaluation of the bean's conditions, which came to
`true` right before (`Plan.Matched`).

Both are kept by resolutions at any depth (`resolve_keeps_walks`), however they end, and by
whatever happens later, so they hold of every container that operations lead to
(`resolution_ends_once`).
-/
import Inversion.Proofs.History
import Inversion.Proofs.Lookup.Run

namespace Inversion

/-- The bean whose conditions are to be evaluated. -/
def Event.begun? : Event → Option Nat
  | status b .resolving => some b
  | _ => none

/-- The bean whose composition is to be walked. -/
def Event.walked? : Event → Option Nat
  | walked b => some b
  | _ => none

/-! ### At most once -/

/-- What `f` tells of a bean it tells once at most, and not while the bean is fresh. -/
structure Once (f : Event → Option Nat) (p : Progress) : Prop where
  nodup : (p.events.filterMap f).Nodup
  begun : ∀ b ∈ p.events.filterMap f, p.registry.status b ≠ .fresh

namespace Once

variable {f : Event → Option Nat} {p q : Progress} {b : Nat}

/-- Changes of which nothing is told, and that make no bean fresh. -/
theorem step (h : Once f p) (hf : q.events.filterMap f = p.events.filterMap f)
    (hs : ∀ b, q.registry.status b = .fresh → p.registry.status b = .fresh) : Once f q := by
  refine ⟨?_, fun b hb hq => ?_⟩
  · rw [hf]
    exact h.nodup
  · rw [hf] at hb
    exact h.begun b hb (hs b hq)

theorem note (h : Once f p) {e : Event} (he : f e = none) : Once f (p.note e) :=
  h.step (List.filterMap_cons_none he) fun _ hb => hb

/-- What is told of a bean that is not fresh, and of which it was not told before. -/
theorem tell (h : Once f p) {e : Event} (he : f e = some b) (hb : b ∉ p.events.filterMap f)
    (hs : p.registry.status b ≠ .fresh) : Once f (p.note e) := by
  have hcons : (p.note e).events.filterMap f = b :: p.events.filterMap f :=
    List.filterMap_cons_some he
  refine ⟨?_, fun c hc => ?_⟩
  · rw [hcons]
    exact List.nodup_cons.mpr ⟨hb, h.nodup⟩
  · rw [hcons] at hc
    rcases List.mem_cons.mp hc with rfl | hc
    · exact hs
    · exact h.begun c hc

/-- Where nothing is told yet. -/
theorem of_none (h : ∀ e ∈ p.events, f e = none) : Once f p := by
  have hnil : p.events.filterMap f = [] := List.filterMap_eq_nil_iff.mpr h
  refine ⟨?_, fun b hb => ?_⟩
  · rw [hnil]
    exact List.nodup_nil
  · rw [hnil] at hb
    exact absurd hb List.not_mem_nil

/-- A bean of which nothing has been told. -/
theorem not_mem (h : Once f p) (hb : p.registry.status b = .fresh) : b ∉ p.events.filterMap f :=
  fun hin => h.begun b hin hb

theorem setStatus (h : Once f p) {s : Status} (hs : s ≠ .fresh) :
    Once f { p with registry := p.registry.setStatus b s } := by
  refine h.step rfl fun c hc => ?_
  rw [Registry.status_setStatus] at hc
  split at hc
  · exact absurd hc hs
  · exact hc

end Once

/-! ### What is told -/

theorem Event.IsIndexing.not_walked {e : Event} (h : e.IsIndexing) : e.walked? = none := by
  cases e <;> first | rfl | exact h.elim

theorem Event.IsIndexing.not_begun {e : Event} (h : e.IsIndexing) : e.begun? = none := by
  cases e <;> first | rfl | exact h.elim

theorem Event.IsRemark.not_begun {e : Event} (h : e.IsRemark) : e.begun? = none := by
  cases e <;> first | rfl | exact h.elim

theorem Event.IsReport.not_begun {e : Event} (h : e.IsReport) : e.begun? = none := by
  cases e <;> first | rfl | exact h.elim

theorem Event.IsReport.not_walked {e : Event} (h : e.IsReport) : e.walked? = none := by
  cases e <;> first | rfl | exact h.elim

theorem Event.IsAfterword.isReport {e : Event} (h : e.IsAfterword) : e.IsReport := by
  cases e <;> trivial

theorem Event.IsCheck.isReport {e : Event} (h : e.IsCheck) : e.IsReport := by
  cases e <;> trivial

namespace Plan

variable {plan : Plan} {b n k : Nat} {p : Progress}

section
variable {f : Event → Option Nat} {bean : Bean} {exports : List TypeName}

theorem filterMap_index (hi : ∀ e, e.IsIndexing → f e = none) :
    (index b bean exports p).events.filterMap f = p.events.filterMap f := by
  obtain ⟨-, ms, hhistory, hms⟩ := index_spec b bean exports p
  have hnone : (ms.map Moment.event).filterMap f = [] := by
    refine List.filterMap_eq_nil_iff.mpr fun e he => ?_
    obtain ⟨m, hm, rfl⟩ := List.mem_map.mp he
    exact hi _ (hms m hm).1
  unfold Progress.events
  rw [hhistory, List.map_append, List.filterMap_append, hnone, List.nil_append]

theorem filterMap_settle (hi : ∀ e, e.IsIndexing → f e = none) (hs : f (.status b .resolved) = none) :
    (settle b bean exports p).events.filterMap f = p.events.filterMap f :=
  (List.filterMap_cons_none hs).trans (filterMap_index hi)

theorem filterMap_discard (hs : f (.status b .deleted) = none) (hd : f (.deleted (plan.idOf b)) = none) :
    (plan.discard b p).events.filterMap f = p.events.filterMap f :=
  (List.filterMap_cons_none hd).trans (List.filterMap_cons_none hs)

theorem once_settle (h : Once f p) (hi : ∀ e, e.IsIndexing → f e = none)
    (hs : f (.status b .resolved) = none) : Once f (settle b bean exports p) :=
  h.step (filterMap_settle hi hs) fun _ hc =>
    mem_fresh.mp (having_settle_subset exports (mem_fresh.mpr hc))

theorem once_discard (h : Once f p) (hs : f (.status b .deleted) = none)
    (hd : f (.deleted (plan.idOf b)) = none) : Once f (plan.discard b p) :=
  h.step (filterMap_discard hs hd) fun _ hc => mem_fresh.mp (having_discard_subset (mem_fresh.mpr hc))

end

/-! ### Beginnings -/

theorem persists_once_begun : plan.Persists (Once Event.begun?) where
  note _ _ he hp := hp.note he.not_begun
  begin p b hb hp := by
    have hlt : b < p.registry.marks.length := Registry.lt_length_of_status_eq hb (by decide)
    refine (hp.setStatus (by decide)).tell rfl (hp.not_mem hb) ?_
    rw [Registry.status_setStatus_self _ b _ hlt]
    decide
  settle p b bean exports _ _ _ hp := once_settle hp (fun _ he => he.not_begun) rfl
  discard p b _ hp := once_discard hp rfl rfl

/-! ### Walks -/

/-- Where a composition is walked, the evaluation of its bean's conditions has just come to
`true`, in a context that was cancelled or not. -/
def Matched (plan : Plan) (m : Moment) (earlier : List Moment) : Prop :=
  ∀ b, m.event = .walked b → ∃ bean cancelled s q, plan.beans[b]? = some bean ∧ bean.composite ∧
    s.registry.status b = .resolving ∧
    outcome ({ plan with cancelled }.check plan.beans.length bean) s = (.ok true, q) ∧
    q.registry = m.registry ∧ q.history = earlier

theorem matched_of_not_walked {m : Moment} (h : m.event.walked? = none) (ms : List Moment) :
    plan.Matched m ms := by
  intro b hb
  rw [hb] at h
  cases h

/-- At most `n` beans are fresh, no composition is walked twice, and none before its bean's
conditions have matched. -/
structure Walks (plan : Plan) (n : Nat) (p : Progress) : Prop where
  fresh : p.Fresh n
  once : Once Event.walked? p
  matched : Throughout plan.Matched p.history

namespace Walks

theorem note (h : plan.Walks n p) {e : Event} (he : e.walked? = none) : plan.Walks n (p.note e) :=
  ⟨h.fresh, h.once.note he, matched_of_not_walked he _, h.matched⟩

theorem begin (h : plan.Walks (n + 1) p) (hb : p.registry.status b = .fresh) :
    plan.Walks n (p.setStatus b .resolving) where
  fresh := fresh_begin h.fresh hb
  once := (h.once.setStatus (by decide)).note rfl
  matched := ⟨matched_of_not_walked rfl _, h.matched⟩

theorem discard (h : plan.Walks n p) (b : Nat) : plan.Walks n (plan.discard b p) where
  fresh := fresh_discard h.fresh
  once := once_discard h.once rfl rfl
  matched := ⟨matched_of_not_walked rfl _, matched_of_not_walked rfl _, h.matched⟩

theorem settle (h : plan.Walks n p) (b : Nat) (bean : Bean) (exports : List TypeName) :
    plan.Walks n (Plan.settle b bean exports p) where
  fresh := fresh_settle h.fresh exports
  once := once_settle h.once (fun _ he => he.not_walked) rfl
  matched := by
    obtain ⟨-, ms, hhistory, hms⟩ := index_spec b bean exports p
    refine ⟨matched_of_not_walked rfl _, ?_⟩
    show Throughout plan.Matched (index b bean exports p).history
    rw [hhistory]
    exact h.matched.append fun m hm => matched_of_not_walked (hms m hm).1.not_walked

end Walks

/-- A bean that is begun, whose composition has not been walked yet. -/
def Unwalked (b : Nat) (p : Progress) : Prop :=
  b ∉ p.events.filterMap Event.walked? ∧ p.registry.status b ≠ .fresh

theorem Unwalked.note (h : Unwalked b p) {e : Event} (he : e.walked? = none) :
    Unwalked b (p.note e) := by
  refine ⟨?_, h.2⟩
  rw [show (p.note e).events = e :: p.events from rfl, List.filterMap_cons_none he]
  exact h.1

theorem check_keeps_unwalked (n : Nat) (bean : Bean)
    (h : ∀ c, Keeps (Unwalked b) (plan.resolve n c)) : Keeps (Unwalked b) (plan.check n bean) := by
  refine check_carries (Hosts.keeps (fun q e he hq => hq.note he.isReport.not_walked)
    fun sel => ?_) (.inr fun _ h => h)
  exact seek_carries (fun q _ hq => hq.note rfl) (fun q _ _ hq => hq.note rfl) h

/-- Resolutions walk no composition but those of fresh beans. -/
theorem resolve_keeps_unwalked : ∀ n c, Keeps (Unwalked b) (plan.resolve n c)
  | 0, _ => carries_pure ()
  | n + 1, c => by
    intro p hp
    cases hbean : plan.beans[c]? with
    | none => rwa [resolve_of_unregistered hbean]
    | some bean =>
      by_cases hc : p.registry.status c = .fresh
      · have hne : b ≠ c := fun hbc => hp.2 (hbc ▸ hc)
        have hbegun : Unwalked b (p.setStatus c .resolving) := by
          refine ⟨hp.1, ?_⟩
          rw [Progress.registry_setStatus, Registry.status_setStatus_of_ne _ c b _ hne]
          exact hp.2
        have hcheck := check_keeps_unwalked n bean (resolve_keeps_unwalked n) _ hbegun
        refine resolve_of_fresh hbean hc hcheck (fun q hq => ⟨fun hin => ?_, hq.2⟩)
          (fun e q hq => hq) (fun e q hq _ => hq) (fun q hq => ⟨?_, ?_⟩)
          fun exports q hq _ => ⟨?_, ?_⟩
        · rcases List.mem_cons.mp hin with hin | hin
          · exact hne hin
          · exact hq.1 hin
        · rw [filterMap_discard rfl rfl]
          exact hq.1
        · rw [status_discard_of_ne c b q plan hne]
          exact hq.2
        · rw [filterMap_settle (fun _ he => he.not_walked) rfl]
          exact hq.1
        · rw [status_settle_of_ne c b bean exports q hne]
          exact hq.2
      · rwa [resolve_of_begun hc]

theorem check_agrees (bean : Bean) (k : Nat) :
    Agrees (Progress.Fresh n) (plan.check n bean) (plan.check (n + k) bean) :=
  checkWith_agrees (fun _ _ _ hp => hp) (resolve_agrees k n) bean

/-- What the evaluation of the conditions of a bean that has just begun leaves. -/
theorem check_walks {bean : Bean} (hn : n + k = plan.beans.length)
    (ih : ∀ c, Keeps (plan.Walks n) (plan.resolve n c)) (hp : plan.Walks n p) (hb : Unwalked b p) :
    After (plan.check n bean) p fun r q => (plan.Walks n q ∧ Unwalked b q) ∧
      outcome (plan.check plan.beans.length bean) p = (r, q) := by
  have hkept : Keeps (plan.Walks n) (plan.check n bean) := by
    refine check_carries (Hosts.keeps (fun q e he hq => hq.note he.isReport.not_walked)
      fun sel => ?_) (.inr fun _ h => h)
    exact seek_carries (fun q _ hq => hq.note rfl) (fun q _ _ hq => hq.note rfl) ih
  have hunwalked : Keeps (Unwalked b) (plan.check n bean) :=
    check_keeps_unwalked n bean (resolve_keeps_unwalked n)
  refine ⟨⟨hkept.after hp, hunwalked.after hb⟩, ?_⟩
  rw [← hn, ← (check_agrees bean k p hp.fresh).1]

/-- A composition is walked where its bean's conditions have matched. -/
theorem Walks.walk {s : Progress} {bean : Bean} (h : plan.Walks n p) (hb : Unwalked b p)
    (hbean : plan.beans[b]? = some bean) (hc : bean.composite)
    (hs : s.registry.status b = .resolving)
    (hcheck : outcome (plan.check plan.beans.length bean) s = (.ok true, p)) :
    plan.Walks n (p.note (.walked b)) where
  fresh := h.fresh
  once := h.once.tell rfl hb.1 hb.2
  matched := by
    refine ⟨fun c hwalked => ?_, h.matched⟩
    cases hwalked
    exact ⟨bean, plan.cancelled, s, p, hbean, hc, hs, hcheck, rfl, rfl⟩

theorem resolve_keeps_walks : ∀ n k, n + k = plan.beans.length → ∀ b,
    Keeps (plan.Walks n) (plan.resolve n b)
  | 0, _, _, _ => carries_pure ()
  | n + 1, k, hn, b => by
    intro p hp
    cases hbean : plan.beans[b]? with
    | none => rwa [resolve_of_unregistered hbean]
    | some bean =>
      by_cases hb : p.registry.status b = .fresh
      · have hlt : b < p.registry.marks.length := Registry.lt_length_of_status_eq hb (by decide)
        have hbegun : (p.setStatus b .resolving).registry.status b = .resolving :=
          Registry.status_setStatus_self _ b _ hlt
        have hunwalked : Unwalked b (p.setStatus b .resolving) :=
          ⟨hp.once.not_mem hb, by rw [hbegun]; decide⟩
        have hcheck : After (plan.check n bean) (p.setStatus b .resolving) _ :=
          check_walks (k := k + 1) (by omega) (resolve_keeps_walks n (k + 1) (by omega))
            (hp.begin hb) hunwalked
        have hmore : ∀ {q}, plan.Walks n q → plan.Walks (n + 1) q := fun hq =>
          ⟨Nat.le_succ_of_le hq.fresh, hq.once, hq.matched⟩
        refine resolve_of_fresh_walked (E := plan.Walks n) hbean hb hcheck (fun q _ hq => hq.1.1)
          (fun q hc hq => hq.1.1.walk hq.1.2 hbean hc hbegun hq.2)
          (fun e q hq => hmore (hq.1.1.note rfl)) (fun e q hq _ => hmore (hq.note rfl))
          (fun q hq => hmore (hq.1.1.discard b))
          fun exports q hq _ => hmore (hq.settle b bean exports)
      · rwa [resolve_of_begun hb]

theorem find_keeps_walks (sel : Selector) :
    Keeps (plan.Walks plan.beans.length) (plan.find sel) :=
  findWith_carries (fun _ _ hp => hp.note rfl) (fun _ _ _ hp => hp.note rfl)
    (resolve_keeps_walks plan.beans.length 0 rfl)

/-! ### Whole runs -/

/-- Each bean is begun once, its composition is walked once and behind its conditions, and
where the resolution of all beans ends every bean is resolved or deleted, if no condition goes
on after a failed lookup. -/
structure Thrifty (plan : Plan) (p : Progress) : Prop where
  length : p.registry.marks.length = plan.beans.length
  walks : plan.Walks plan.beans.length p
  begun : Once Event.begun? p
  ended : ∀ m ∈ p.history, m.event = .beansResolved →
    (∀ bean ∈ plan.beans, Condition.AllPropagate bean.conditions) → ∀ b < plan.beans.length,
      m.registry.status b = .resolved ∨ m.registry.status b = .deleted

namespace Thrifty

variable {q : Progress}

/-- A moment that makes no bean fresh, and begins, walks and ends nothing. -/
theorem moment (h : Thrifty plan p) {m : Moment} (hq : q.history = m :: p.history)
    (hb : m.event.begun? = none) (hw : m.event.walked? = none) (hr : m.event ≠ .beansResolved)
    (hl : q.registry.marks.length = p.registry.marks.length)
    (hs : ∀ b, q.registry.status b = .fresh → p.registry.status b = .fresh) : Thrifty plan q := by
  have hevents : q.events = m.event :: p.events := by
    unfold Progress.events
    rw [hq, List.map_cons]
  have hsub : q.registry.having Status.isFresh ⊆ p.registry.having Status.isFresh :=
    fun c hc => mem_fresh.mpr (hs c (mem_fresh.mp hc))
  refine ⟨hl.trans h.length, ⟨(Finset.card_le_card hsub).trans h.walks.fresh,
    h.walks.once.step ?_ hs, ?_⟩, h.begun.step ?_ hs, ?_⟩
  · rw [hevents, List.filterMap_cons_none hw]
  · rw [hq]
    exact ⟨matched_of_not_walked hw _, h.walks.matched⟩
  · rw [hevents, List.filterMap_cons_none hb]
  · rw [hq]
    exact List.forall_mem_cons.mpr ⟨fun he => absurd he hr, h.ended⟩

theorem note (h : Thrifty plan p) {e : Event} (he : e.IsReport) : Thrifty plan (p.note e) :=
  h.moment rfl he.not_begun he.not_walked (by rintro rfl; exact he) rfl fun _ hb => hb

theorem setStatus (h : Thrifty plan p) {s : Status} (hf : s ≠ .fresh) (hr : s ≠ .resolving) :
    Thrifty plan (p.setStatus b s) := by
  refine h.moment rfl ?_ rfl nofun (Registry.length_setStatus _ b s) fun c hc => ?_
  · cases s <;> first | rfl | exact absurd rfl hr
  · rw [Progress.registry_setStatus, Registry.status_setStatus] at hc
    split at hc
    · exact absurd hc hf
    · exact hc

/-- Of the plan only the context may change. -/
theorem congr {plan' : Plan} (h : Thrifty plan p) (hb : plan'.beans = plan.beans)
    (hc : plan'.compositions = plan.compositions) (hi : plan'.injector = plan.injector)
    (hp : plan'.properties = plan.properties) : Thrifty plan' p := by
  obtain ⟨beans, properties, compositions, injector, cancelled⟩ := plan
  obtain ⟨beans', properties', compositions', injector', cancelled'⟩ := plan'
  cases hb
  cases hc
  cases hi
  cases hp
  exact ⟨h.length, ⟨h.walks.fresh, h.walks.once, h.walks.matched⟩, h.begun, h.ended⟩

end Thrifty

theorem Thrifty.of_frozen (h : Container.Frozen plan p) : Thrifty plan p := by
  have hreport : ∀ e ∈ p.events, e.IsReport := fun e he => (h.aside e he).isAfterword.isReport
  have hlen : p.registry.marks.length = plan.beans.length := by
    rw [h.registry]
    exact List.length_map ..
  refine ⟨hlen, ⟨fresh_of_length (Nat.le_of_eq hlen),
    .of_none fun e he => (hreport e he).not_walked, ?_⟩,
    .of_none fun e he => (hreport e he).not_begun, fun m hm he => ?_⟩
  · exact .of_forall fun m hm => matched_of_not_walked (hreport _ (List.mem_map_of_mem hm)).not_walked
  · have hm := hreport _ (List.mem_map_of_mem hm)
    rw [he] at hm
    exact hm.elim

theorem persists_ended {C : Moment → Prop} :
    plan.Persists fun p => ∀ m ∈ p.history, m.event = .beansResolved → C m :=
  persists_history (P := fun ms => ∀ m ∈ ms, m.event = .beansResolved → C m) fun m ms hm hms =>
    List.forall_mem_cons.mpr ⟨fun he => by rw [he] at hm; exact hm.elim, hms⟩

/-- What resolutions keep of it by themselves. -/
theorem persists_thrifty {C : Moment → Prop} : plan.Persists fun p =>
    p.registry.marks.length = plan.beans.length ∧ Once Event.begun? p ∧
      ∀ m ∈ p.history, m.event = .beansResolved → C m :=
  (persists_length _).and (persists_once_begun.and persists_ended)

theorem find_keeps_thrifty (sel : Selector) : Keeps (Thrifty plan) (plan.find sel) :=
  .of_after fun _ hp => (((find_keeps_walks sel).after hp.walks).and
    ((find_keeps persists_thrifty sel).after ⟨hp.length, hp.begun, hp.ended⟩)).mono
      fun _ _ hq => ⟨hq.2.1, hq.1, hq.2.2.1, hq.2.2.2⟩

theorem resolveAll_keeps_thrifty : Keeps (Thrifty plan) plan.resolveAll := by
  have hwalks : Keeps (plan.Walks plan.beans.length) plan.resolveAll :=
    Carries.forM fun b _ => resolve_keeps_walks plan.beans.length 0 rfl b
  exact .of_after fun _ hp => ((hwalks.after hp.walks).and
    ((resolveAll_keeps persists_thrifty).after ⟨hp.length, hp.begun, hp.ended⟩)).mono
      fun _ _ hq => ⟨hq.2.1, hq.1, hq.2.2.1, hq.2.2.2⟩

theorem endures_thrifty : plan.Endures (fun a => Thrifty plan a.progress) fun _ => True where
  progress a a' h ha := by rwa [h]
  note a e he ha := ha.note he.isReport
  handed a b _ ha := ha.moment rfl rfl rfl nofun rfl fun _ hc => hc
  received a asker b _ ha := ha.moment rfl rfl rfl nofun rfl fun _ hc => hc
  count a n ha := ⟨ha.length, ⟨ha.walks.fresh, ha.walks.once.step rfl fun _ hb => hb,
    ha.walks.matched⟩, ha.begun.step rfl fun _ hb => hb, ha.ended⟩
  begin a b _ ha := ha.setStatus (by decide) (by decide)
  hold a b i _ ha := by
    have hlen : ((a.registry.setHeld b i).setStatus b .wired).marks.length =
        a.registry.marks.length :=
      (Registry.length_setStatus _ b _).trans (Registry.length_setHeld _ b i)
    refine ha.moment (m := ⟨.status b .wired, _⟩) rfl rfl rfl nofun hlen fun c hc => ?_
    have hc : ((a.registry.setHeld b i).setStatus b .wired).status c = .fresh := hc
    rw [Registry.status_setStatus] at hc
    split at hc
    · cases hc
    · rwa [Registry.status_setHeld] at hc
  find sel a ha := by
    rw [after_ofResolving]
    exact ((find_keeps_thrifty sel).after ha).mono fun _ q hq => ⟨hq, fun _ _ _ _ => trivial⟩
  reach _ _ _ _ := trivial

/-- A resolution of all beans that succeeds leaves each resolved or deleted. -/
theorem resolveAll_ends (h : Container.Frozen plan p) :
    After plan.resolveAll p fun x q => x = .ok () →
      (∀ bean ∈ plan.beans, Condition.AllPropagate bean.conditions) → ∀ b < plan.beans.length,
        q.registry.status b = .resolved ∨ q.registry.status b = .deleted := by
  have hstatus : plan.Persists fun p => ∀ b, p.registry.status b ≠ .creating ∧
      p.registry.status b ≠ .wired :=
    .all fun b => persists_status (P := fun s => s ≠ .creating ∧ s ≠ .wired) (by decide) (by decide)
      (by decide) b
  have hkept := (resolveAll_keeps hstatus).after (s := p) fun b =>
    ⟨h.status_ne (by decide) (by decide) b, h.status_ne (by decide) (by decide) b⟩
  have hdecided : After plan.resolveAll p fun x q =>
      (∀ bean ∈ plan.beans, Condition.AllPropagate bean.conditions) → x = .ok () →
        q.registry.Decided := fun hprop =>
    (resolveAll_faithful hprop h.faithful (h.status_ne (by decide) (by decide))).2
  refine (hkept.and hdecided).mono fun x q ⟨hs, hd⟩ hx hprop b _ => ?_
  refine (hd hprop hx b).imp_left fun hsettled => ?_
  cases hb : q.registry.status b with
  | resolved => rfl
  | creating => exact absurd hb (hs b).1
  | wired => exact absurd hb (hs b).2
  | _ =>
    rw [hb] at hsettled
    cases hsettled

theorem refresh_thrifty (h : Container.Frozen plan p) (configurations : List Configuration) :
    After (plan.refresh configurations) (.start p) fun _ t => Thrifty plan t.progress := by
  have hkept := (resolveAll_keeps_thrifty).after (Thrifty.of_frozen h)
  refine refresh_keeps configurations ((hkept.and (resolveAll_ends h)).mono fun x q ⟨hq, hends⟩ => ?_)
  cases x with
  | error cause => exact hq
  | ok _ =>
    have hwalks : plan.Walks plan.beans.length (q.note .beansResolved) :=
      ⟨hq.walks.fresh, hq.walks.once.note rfl, matched_of_not_walked rfl _, hq.walks.matched⟩
    refine ⟨_, endures_thrifty.outlasts (fun a e he ha => ha.note he) fun _ _ _ _ => .inl trivial,
      ⟨hq.length, hwalks, hq.begun.note rfl,
        List.forall_mem_cons.mpr ⟨fun _ => hends rfl, hq.ended⟩⟩, fun _ ha => ha⟩

end Plan

/-! ### Containers -/

namespace Container

theorem lasts_thrifty : Lasts Plan.Thrifty where
  congr _ _ hb hc hi hp h := h.congr hb hc hi hp
  note he h := h.note he.isReport
  start h := .of_frozen h
  refresh h configurations := Plan.refresh_thrifty h configurations
  find sel h := (Plan.find_keeps_thrifty sel).after h

/-- For every list of beans, every injector and all operations, whatever the conditions do:
the resolution of a bean ends, since it satisfies the recursion that has no bound, and no more
calls stand inside one another behind their guards than there are beans, whatever would
come next. Each bean is begun once at most over the whole life of the container, and
its composition is walked once at most, only if its conditions have matched right before. If
no condition goes on after a failed lookup, every bean is resolved or deleted once the
resolution of all beans has succeeded. -/
theorem resolution_ends_once (injector : Injector) (compositions : Compositions)
    (ops : List Operation) :
    let c := ((empty injector compositions).performAll ops).2
    (c.phase ≠ .unrefreshed → c.registry.marks.length = c.beans.length) ∧
    (∀ p : Progress, p.registry.marks.length = c.beans.length → ∀ b,
      outcome (c.plan.resolveBean b) p = outcome (c.plan.activate c.plan.resolveBean b) p ∧
      ∀ beyond, outcome (c.plan.resolveBeyond beyond c.beans.length b) p =
          outcome (c.plan.resolveBean b) p ∧
        ∀ sel, outcome (c.plan.findWith (c.plan.resolveBeyond beyond c.beans.length) sel) p =
          outcome (c.plan.find sel) p) ∧
    (c.events.filterMap Event.begun?).Nodup ∧
    (c.events.filterMap Event.walked?).Nodup ∧
    (∀ later m earlier b, c.progress.history = later ++ m :: earlier → m.event = .walked b →
      ∃ bean cancelled s q, c.beans[b]? = some bean ∧ bean.composite ∧
        s.registry.status b = .resolving ∧
        outcome ({ c.plan with cancelled }.check c.beans.length bean) s = (.ok true, q) ∧
        q.registry = m.registry ∧ q.history = earlier) ∧
    ((∀ bean ∈ c.beans, Condition.AllPropagate bean.conditions) →
      ∀ m ∈ c.progress.history, m.event = .beansResolved → ∀ b < c.beans.length,
        m.registry.status b = .resolved ∨ m.registry.status b = .deleted) := by
  intro c
  have h : Has Plan.Thrifty c := performAll_lasts lasts_thrifty injector compositions ops
  have hends : ∀ p : Progress, p.registry.marks.length = c.beans.length → ∀ b,
      outcome (c.plan.resolveBean b) p = outcome (c.plan.activate c.plan.resolveBean b) p ∧
      ∀ beyond, outcome (c.plan.resolveBeyond beyond c.beans.length b) p =
          outcome (c.plan.resolveBean b) p ∧
        ∀ sel, outcome (c.plan.findWith (c.plan.resolveBeyond beyond c.beans.length) sel) p =
          outcome (c.plan.find sel) p := fun p hp b =>
    ⟨Plan.resolveBean_eq_activate (Nat.le_of_eq hp) b, fun beyond =>
      ⟨Plan.resolveBeyond_eq_resolveBean (Nat.le_of_eq hp) beyond b,
        fun sel => Plan.findWith_resolveBeyond (Nat.le_of_eq hp) beyond sel⟩⟩
  by_cases hn : c.phase = .unrefreshed
  · have hreport : ∀ e ∈ c.events, e.IsReport := fun e he => (h.new hn e he).isAfterword.isReport
    have hnone : ∀ m ∈ c.progress.history, m.event.IsReport := fun m hm =>
      hreport m.event (List.mem_map_of_mem hm)
    have hbegun : Once Event.begun? c.progress := .of_none fun e he => (hreport e he).not_begun
    have hwalked : Once Event.walked? c.progress := .of_none fun e he => (hreport e he).not_walked
    refine ⟨fun h => absurd hn h, hends, hbegun.nodup, hwalked.nodup,
      fun later m earlier b hp hm => ?_, fun _ m hm he => ?_⟩
    · have hin := hnone m (by rw [hp]; simp)
      rw [hm] at hin
      exact hin.elim
    · have hin := hnone m hm
      rw [he] at hin
      exact hin.elim
  · have ht : Plan.Thrifty c.plan c.progress := h.since hn
    refine ⟨fun _ => ht.length, hends, ht.begun.nodup, ht.walks.once.nodup,
      fun later m earlier b hp hm => ?_, fun hprop m hm he => ht.ended m hm he hprop⟩
    have hmatched := ht.walks.matched
    rw [hp] at hmatched
    exact hmatched.moment b hm

/-- Two beans that ask for each other, one that asks for itself, and a composite for the case
that they are missing. -/
def entangled : List Bean :=
  let bean (n : Nat) (type : String) (conditions : List Condition) : Bean :=
    { Bean.plain (.of type) (.main n) (.constructor ⟨[], .part, type, none⟩) with conditions }
  [bean 1 "app::Left" [.beans .some (.type (.of "app::Right"))],
    bean 2 "app::Right" [.beans .some (.type (.of "app::Left"))],
    bean 3 "app::Own" [.all [.beans .single (.parse "app::Own:")]],
    { bean 4 "app::App" [.beans .none (.type (.of "app::Left"))] with composite := true }]

theorem resolution_ends_once_of_entangled :
    let c := ((empty .standard ⟨[]⟩).performAll (entangled.map .register ++ [.refresh])).2
    c.events.filterMap Event.begun? = [2, 3, 1, 0] ∧ c.events.filterMap Event.walked? = [3] ∧
      ∃ m ∈ c.progress.history, ∀ b < c.beans.length,
        m.registry.status b = .resolved ∨ m.registry.status b = .deleted := by
  have hplain : ((empty .standard ⟨[]⟩).performAll
      (entangled.map .register ++ [.refresh])).2.beans.all
        fun bean => Condition.arePlain bean.conditions := by decide +kernel
  have hany : ((empty .standard ⟨[]⟩).performAll
      (entangled.map .register ++ [.refresh])).2.progress.history.any
        fun m => m.event matches .beansResolved := by decide +kernel
  have hends := resolution_ends_once .standard ⟨[]⟩ (entangled.map .register ++ [.refresh])
  refine ⟨by decide +kernel, by decide +kernel, ?_⟩
  obtain ⟨⟨e, r⟩, hin, he⟩ := List.any_eq_true.mp hany
  cases e with
  | beansResolved =>
    refine ⟨_, hin, fun b hb => hends.2.2.2.2.2 (fun bean hbean => ?_) _ hin rfl b hb⟩
    exact Condition.allPropagate_of_arePlain _ (List.all_eq_true.mp hplain bean hbean)
  | _ => cases he

end Container
end Inversion
