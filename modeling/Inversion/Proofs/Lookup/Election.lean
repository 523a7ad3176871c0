/-
# The election of a fallback

Several beans of one type may each take part only if there is no other of the type. A
fallback that is resolved looks for the others while it is hidden itself, so the first of them
that is still fresh is resolved inside its lookup, and so on, until one finds none that is
fresh: this one is resolved. Every other finds it in the rest of its scan, because the
beans that a scan has passed are hidden, and is deleted (`resolve_elects`).

If the innermost fallback fails, the failure goes through all of them and they stay being
resolved. So whatever other beans look up, and from wherever this begins, the fallbacks are
all fresh, all stuck, or one of them has been elected (`resolve_keeps_ballot`).

A bean that is being resolved is under way, or its resolution has failed and this was noted
(`resolve_keeps_stranded`). When all beans are resolved none is under way, so where no failure was
noted one fallback has been elected (`one_fallback_stays`).
-/
import Inversion.Proofs.Lookup.Once
import Inversion.Proofs.Lookup.Steady

namespace Inversion

/-! ### Fallbacks -/

/-- Beans that take part if there is no other of their type, and nothing else that could be
found under it. -/
structure Contested (t : TypeName) (beans : List Bean) : Prop where
  simple : ∀ bean ∈ beans, bean.composite = false
  fallback : ∀ bean ∈ beans, bean.type = t → bean.conditions = [.beans .none (.type t)]
  other : ∀ bean ∈ beans, bean.type ≠ t → t ∉ bean.exports

namespace Plan

variable {plan : Plan} {t : TypeName} {b c n s : Nat} {r r' : Registry} {p q : Progress}

/-- A bean of the type. -/
def Fallback (plan : Plan) (t : TypeName) (b : Nat) : Prop :=
  ∃ bean, plan.beans[b]? = some bean ∧ bean.type = t

/-- No fallback is decided. -/
def Undecided (plan : Plan) (t : TypeName) (r : Registry) : Prop :=
  ∀ b, plan.Fallback t b → r.status b = .fresh ∨ r.status b = .resolving

/-- All fallbacks are being resolved. -/
def Stuck (plan : Plan) (t : TypeName) (r : Registry) : Prop :=
  ∀ b, plan.Fallback t b → r.status b = .resolving

/-- One of the fallbacks that were fresh is resolved, the others are deleted. -/
structure Elects (plan : Plan) (t : TypeName) (s : Nat) (r r' : Registry) : Prop where
  fallback : plan.Fallback t s
  fresh : r.status s = .fresh
  resolved : r'.status s = .resolved
  deleted : ∀ b, plan.Fallback t b → b ≠ s → r.status b = .fresh → r'.status b = .deleted
  hidden : ∀ b, plan.Fallback t b → r.status b = .resolving → r'.status b = .resolving

theorem mem_candidates (h : Contested t plan.beans) (ho : plan.Undecided t r) :
    b ∈ plan.candidates r (.type t) ↔ plan.Fallback t b := by
  have hmay : plan.mayMatch (.type t) b ↔ plan.Fallback t b := by
    unfold mayMatch Fallback
    rw [Option.any_eq_true]
    refine exists_congr fun bean => and_congr_right fun hbean => ?_
    have hin := List.mem_of_getElem? hbean
    show bean.mayProvide t = true ↔ bean.type = t
    unfold Bean.mayProvide
    by_cases ht : bean.type = t
    · simp [ht]
    · simp [ht, h.other bean hin ht, h.simple bean hin]
  unfold candidates
  rw [List.mem_filter, Registry.mem_active, hmay]
  refine and_iff_right_of_imp fun hb => ?_
  rcases ho b hb with hs | hs <;> rw [hs] <;> decide

theorem selects_fallback (hb : plan.Fallback t b) : plan.selects r (.type t) b := by
  obtain ⟨bean, hbean, htype⟩ := hb
  unfold selects
  rw [hbean]
  simp [Selector.matchesBean, htype]

/-- Once one has been elected, no fallback is fresh. -/
theorem Elects.status_ne_fresh (h : plan.Elects t s r r') (ho : plan.Undecided t r)
    (hb : plan.Fallback t b) : r'.status b ≠ .fresh := by
  by_cases hbs : b = s
  · rw [hbs, h.resolved]
    decide
  rcases ho b hb with hf | hr
  · rw [h.deleted b hb hbs hf]
    decide
  · rw [h.hidden b hb hr]
    decide

/-! ### The lookups of fallbacks -/

/-- What a lookup comes to from a registry: all fallbacks are hidden and nothing is found, or
one is elected and found, or the fallbacks are stuck. -/
def Polls (plan : Plan) (t : TypeName) (r : Registry) (x : Except ResolveError (List Nat))
    (r' : Registry) : Prop :=
  match x with
  | .ok found => found = [] ∧ plan.Stuck t r ∧ r' = r ∨ found ≠ [] ∧ ∃ s, plan.Elects t s r r'
  | .error _ => plan.Stuck t r'

/-- To resolve a fresh fallback elects one, or the fallbacks are stuck. -/
def ElectsBy (plan : Plan) (t : TypeName) (n : Nat) (resolve : Nat → Resolving Unit) : Prop :=
  ∀ b p, plan.Fallback t b → plan.Undecided t p.registry → p.Fresh n → p.registry.status b = .fresh →
    After (resolve b) p fun x q =>
      match x with
      | .ok _ => ∃ s, plan.Elects t s p.registry q.registry
      | .error _ => plan.Stuck t q.registry

/-- A scan over what is left of the fallbacks, with all fresh ones among them. -/
theorem scan_elects (hresolve : plan.ElectsBy t n (plan.resolve n)) :
    ∀ (bs : List Nat) (p : Progress), p.Fresh n → plan.Undecided t p.registry →
      (∀ b ∈ bs, plan.Fallback t b) →
      (∀ b, plan.Fallback t b → p.registry.status b = .fresh → b ∈ bs) →
        After (plan.scan (plan.resolve n) (.type t) bs) p fun x q =>
          plan.Polls t p.registry x q.registry
  | [], p, _, ho, _, hall => by
    refine .inl ⟨rfl, fun b hb => ?_, rfl⟩
    exact (ho b hb).resolve_left fun hf => List.not_mem_nil (hall b hb hf)
  | b :: bs, p, hn, ho, hbs, hall => by
    have hb : plan.Fallback t b := hbs b List.mem_cons_self
    rw [scan, after_bind, after_get, continues_ok]
    split
    · rename_i hr
      rw [after_bind, after_modify, continues_ok]
      refine scan_elects hresolve bs (p.note _) hn ho (fun c hc => hbs c (List.mem_cons_of_mem b hc))
        fun c hc hf => (List.mem_cons.mp (hall c hc hf)).resolve_left ?_
      rintro rfl
      rw [Progress.registry_note, hr] at hf
      cases hf
    · rename_i hr
      rw [after_bind]
      refine (hresolve b p hb ho hn ((ho b hb).resolve_right hr)).mono fun x q hq => ?_
      cases x with
      | error cause => exact hq
      | ok _ =>
        obtain ⟨s, hs⟩ := hq
        rw [continues_ok, after_bind, after_get, continues_ok, after_bind]
        -- whoever has been elected was fresh, so this scan has not passed it yet
        have hrest : After (plan.scan (plan.resolve n) (.type t) bs) q _ :=
          scan_of_calm bs (fun q' hq' c hc Q hQ => (resolve_of_begun (by
            rw [hq']
            exact hs.status_ne_fresh ho (hbs c (List.mem_cons_of_mem b hc))) n).mpr hQ) q rfl
        refine hrest.mono fun x t' hscan => ?_
        obtain ⟨ht', hx⟩ := hscan
        rw [hx, continues_ok, after_pure]
        refine .inr ⟨?_, s, ht'.registry ▸ hs⟩
        rcases List.mem_cons.mp (hall s hs.fallback hs.fresh) with rfl | hin
        · rw [if_pos ⟨by rw [hs.resolved]; decide, selects_fallback hb⟩]
          exact List.cons_ne_nil _ _
        · have hfound : s ∈ bs.filter fun b => q.registry.status b ≠ .resolving ∧
              q.registry.status b ≠ .deleted ∧ plan.selects q.registry (.type t) b := by
            refine List.mem_filter.mpr ⟨hin, decide_eq_true ?_⟩
            rw [hs.resolved]
            exact ⟨by decide, by decide, selects_fallback hs.fallback⟩
          split
          · exact List.cons_ne_nil _ _
          · exact List.ne_nil_of_mem hfound

theorem findWith_elects (h : Contested t plan.beans) (hresolve : plan.ElectsBy t n (plan.resolve n))
    (hn : p.Fresh n) (ho : plan.Undecided t p.registry) :
    After (plan.findWith (plan.resolve n) (.type t)) p fun x q =>
      plan.Polls t p.registry x q.registry := by
  unfold findWith
  rw [after_bind, after_get, continues_ok, after_bind]
  refine (scan_elects hresolve _ p hn ho (fun b hb => (mem_candidates h ho).mp hb)
    fun b hb _ => (mem_candidates h ho).mpr hb).mono fun x q hq => ?_
  cases x with
  | error cause => exact hq
  | ok found =>
    rw [continues_ok, after_bind, after_modify, continues_ok, after_pure]
    exact hq

/-- The condition of a fallback holds if all fallbacks are hidden. -/
def Judges (plan : Plan) (t : TypeName) (r : Registry) (x : Except ResolveError Bool)
    (r' : Registry) : Prop :=
  match x with
  | .ok true => plan.Stuck t r ∧ r' = r
  | .ok false => ∃ s, plan.Elects t s r r'
  | .error _ => plan.Stuck t r'

theorem check_elects (h : Contested t plan.beans) (hresolve : plan.ElectsBy t n (plan.resolve n))
    {bean : Bean} (hbean : bean ∈ plan.beans) (htype : bean.type = t) (hn : p.Fresh n)
    (ho : plan.Undecided t p.registry) :
    After (plan.check n bean) p fun x q => plan.Judges t p.registry x q.registry := by
  unfold check
  rw [h.fallback bean hbean htype, after_adapt]
  simp only [allHold, Condition.holds, after_bind, after_modify, continues_ok]
  unfold seek
  rw [after_adapt]
  refine (findWith_elects h hresolve (p := p.note _) hn ho).mono fun x q hq => ?_
  cases x with
  | error cause => exact hq
  | ok found =>
    rcases hq with ⟨rfl, hstuck, hq⟩ | ⟨hfound, helects⟩
    · exact ⟨hstuck, hq⟩
    · cases found with
      | nil => exact absurd rfl hfound
      | cons b bs => exact helects

/-! ### The election -/

section
variable (hb : p.registry.status b = .fresh)
include hb

theorem status_begin (c : Nat) : (p.setStatus b .resolving).registry.status c =
    if c = b then .resolving else p.registry.status c := by
  have hlt : b < p.registry.marks.length := Registry.lt_length_of_status_eq hb (by decide)
  rw [Progress.registry_setStatus, Registry.status_setStatus]
  simp [hlt]

theorem Undecided.begin (ho : plan.Undecided t p.registry) :
    plan.Undecided t (p.setStatus b .resolving).registry := by
  intro c hc
  rw [status_begin hb]
  split
  · exact .inr rfl
  · exact ho c hc

/-- The bean that has looked is deleted if one was elected meanwhile. -/
theorem Elects.discard (h : plan.Elects t s (p.setStatus b .resolving).registry q.registry)
    (hq : q.registry.status b = .resolving) :
    plan.Elects t s p.registry (plan.discard b q).registry := by
  have hlt : b < q.registry.marks.length := Registry.lt_length_of_status_eq hq (by decide)
  have hfresh := h.fresh
  rw [status_begin hb] at hfresh
  have hsb : s ≠ b := by
    rintro rfl
    simp at hfresh
  rw [if_neg hsb] at hfresh
  refine ⟨h.fallback, hfresh, (status_discard_of_ne b s q plan hsb).trans h.resolved,
    fun c hc hcs hf => ?_, fun c hc hr => ?_⟩
  · by_cases hcb : c = b
    · rw [hcb]
      exact status_discard_self b q plan hlt
    · rw [status_discard_of_ne b c q plan hcb]
      refine h.deleted c hc hcs ?_
      rwa [status_begin hb, if_neg hcb]
  · have hcb : c ≠ b := by
      rintro rfl
      exact absurd (hb.symm.trans hr) (by decide)
    rw [status_discard_of_ne b c q plan hcb]
    refine h.hidden c hc ?_
    rwa [status_begin hb, if_neg hcb]

/-- The bean that has looked is elected if all others were hidden. -/
theorem Stuck.settle (h : plan.Stuck t (p.setStatus b .resolving).registry)
    (hq : q.registry = (p.setStatus b .resolving).registry) (hfallback : plan.Fallback t b)
    (bean : Bean) (exports : List TypeName) :
    plan.Elects t b p.registry (Plan.settle b bean exports q).registry := by
  have hdone : q.registry.status b = .resolving := by
    rw [hq]
    exact h b hfallback
  have hlt : b < q.registry.marks.length := Registry.lt_length_of_status_eq hdone (by decide)
  refine ⟨hfallback, hb, status_settle_self b bean exports q hlt, fun c hc hcb hf => ?_,
    fun c hc hr => ?_⟩
  · have hc := h c hc
    rw [status_begin hb, if_neg hcb, hf] at hc
    cases hc
  · have hcb : c ≠ b := by
      rintro rfl
      exact absurd (hb.symm.trans hr) (by decide)
    rw [status_settle_of_ne b c bean exports q hcb, hq]
    exact h c hc

end

theorem resolve_elects (h : Contested t plan.beans) :
    ∀ n, plan.ElectsBy t n (plan.resolve n)
  | 0 => fun _ _ _ _ hn hb => absurd hb (status_ne_of_fresh_zero hn)
  | n + 1 => by
    intro b p hfallback ho hn hb
    obtain ⟨bean, hbean, htype⟩ := id hfallback
    have hcheck := check_elects h (resolve_elects h n) (List.mem_of_getElem? hbean) htype
      (fresh_begin hn hb) (ho.begin hb)
    refine after_resolve hbean hb hcheck (fun q hq => hq) (fun e q hq => hq) (fun e q hq _ => ?_)
      (fun q hq hr => ?_) fun exports q hq _ _ => ?_
    · show plan.Stuck t q.registry
      rw [hq.2]
      exact hq.1
    · obtain ⟨s, hs⟩ := hq
      exact ⟨s, hs.discard hb hr⟩
    · exact ⟨b, hq.1.settle hb hq.2 hfallback bean exports⟩

/-! ### Whatever else is resolved -/

/-- The fallbacks are fresh, or stuck, or one has been elected. -/
inductive Ballot (plan : Plan) (t : TypeName) (r : Registry) : Prop
  | pending (fresh : ∀ b, plan.Fallback t b → r.status b = .fresh)
  | stuck (stuck : plan.Stuck t r)
  | elected (s : Nat) (fallback : plan.Fallback t s) (resolved : r.status s = .resolved)
    (deleted : ∀ b, plan.Fallback t b → b ≠ s → r.status b = .deleted)

theorem Ballot.congr (h : plan.Ballot t r)
    (hs : ∀ b, plan.Fallback t b → r'.status b = r.status b) : plan.Ballot t r' := by
  cases h with
  | pending fresh => exact .pending fun b hb => (hs b hb).trans (fresh b hb)
  | stuck stuck => exact .stuck fun b hb => (hs b hb).trans (stuck b hb)
  | elected s fallback resolved deleted =>
    exact .elected s fallback ((hs s fallback).trans resolved)
      fun b hb hbs => (hs b hb).trans (deleted b hb hbs)

theorem Ballot.pending_of_fresh (h : plan.Ballot t r) (hfallback : plan.Fallback t b)
    (hb : r.status b = .fresh) : ∀ c, plan.Fallback t c → r.status c = .fresh := by
  cases h with
  | pending fresh => exact fresh
  | stuck stuck =>
    rw [stuck b hfallback] at hb
    cases hb
  | elected s _ resolved deleted =>
    by_cases hbs : b = s
    · rw [hbs, resolved] at hb
      cases hb
    · rw [deleted b hfallback hbs] at hb
      cases hb

theorem persists_fresh (n : Nat) : plan.Persists (Progress.Fresh n) where
  note _ _ _ hp := hp
  begin p b _ hp := by
    unfold Progress.Fresh at hp ⊢
    rw [Progress.registry_setStatus, Registry.having_setStatus rfl rfl]
    exact (Finset.card_erase_le).trans hp
  settle _ _ _ exports _ _ _ hp := fresh_settle hp exports
  discard _ _ _ hp := fresh_discard hp

/-- The fallbacks of a registry with at most `n` fresh beans. -/
def Balloting (plan : Plan) (t : TypeName) (n : Nat) (p : Progress) : Prop :=
  p.Fresh n ∧ plan.Ballot t p.registry

theorem resolve_keeps_ballot (h : Contested t plan.beans) :
    ∀ n b, Keeps (plan.Balloting t n) (plan.resolve n b)
  | 0, _ => carries_pure ()
  | n + 1, b => by
    refine Keeps.of_after fun p ⟨hn, hballot⟩ => ?_
    have hfew : Keeps (Progress.Fresh (n + 1)) (plan.resolve (n + 1) b) :=
      resolve_keeps (persists_fresh (n + 1)) (n + 1) b
    suffices hkept : After (plan.resolve (n + 1) b) p fun _ q => plan.Ballot t q.registry from
      ((hfew.after hn).and hkept).mono fun _ _ hq => hq
    cases hbean : plan.beans[b]? with
    | none => rwa [resolve_of_unregistered hbean]
    | some bean =>
      by_cases hb : p.registry.status b = .fresh
      · by_cases htype : bean.type = t
        · -- it may be any of the fallbacks that comes first
          have hfallback : plan.Fallback t b := ⟨bean, hbean, htype⟩
          have hfresh := hballot.pending_of_fresh hfallback hb
          refine (resolve_elects h (n + 1) b p hfallback (fun c hc => .inl (hfresh c hc)) hn hb).mono
            fun x q hq => ?_
          cases x with
          | error cause => exact .stuck hq
          | ok _ =>
            obtain ⟨s, hs⟩ := hq
            exact .elected s hs.fallback hs.resolved
              fun c hc hcs => hs.deleted c hc hcs (hfresh c hc)
        · have hne : ∀ c, plan.Fallback t c → c ≠ b := by
            rintro c ⟨bean', hbean', htype'⟩ rfl
            cases Option.some.inj (hbean.symm.trans hbean')
            exact htype htype'
          have hcheck : Keeps (plan.Balloting t n) (plan.check n bean) :=
            check_carries (Hosts.keeps (fun q e _ hq => hq) fun sel =>
              seek_carries (fun q _ hq => hq) (fun q _ _ hq => hq) (resolve_keeps_ballot h n))
              (.inr fun _ hq => hq)
          have hbegun : plan.Balloting t n (p.setStatus b .resolving) :=
            ⟨fresh_begin hn hb, hballot.congr fun c hc => by
              rw [status_begin hb, if_neg (hne c hc)]⟩
          refine resolve_of_fresh hbean hb (hcheck.after hbegun) (fun q hq => hq)
            (fun e q hq => hq.2) (fun e q hq _ => hq.2) (fun q hq => ?_) fun exports q hq _ => ?_
          · exact hq.2.congr fun c hc => status_discard_of_ne b c q plan (hne c hc)
          · exact hq.2.congr fun c hc => status_settle_of_ne b c bean exports q (hne c hc)
      · rwa [resolve_of_begun hb]

/-! ### Failed resolutions -/

/-- Each bean that is being resolved is one of those under way, or its resolution has failed. -/
def Stranded (underway : List Nat) (p : Progress) : Prop :=
  ∀ b, p.registry.status b = .resolving → b ∈ underway ∨ ∃ cause, .unresolved b cause ∈ p.events

theorem Stranded.note {underway : List Nat} (h : Stranded underway p) (e : Event) :
    Stranded underway (p.note e) := fun b hb =>
  (h b hb).imp_right fun ⟨cause, hin⟩ => ⟨cause, List.mem_cons_of_mem e hin⟩

/-- A bean is under way up to the end of its resolution. -/
theorem Stranded.leave {underway : List Nat} (h : Stranded (b :: underway) p)
    (hsame : ∀ c, c ≠ b → q.registry.status c = p.registry.status c)
    (hevents : p.events ⊆ q.events)
    (hb : q.registry.status b = .resolving → ∃ cause, .unresolved b cause ∈ q.events) :
    Stranded underway q := by
  intro c hc
  by_cases hcb : c = b
  · subst hcb
    exact .inr (hb hc)
  · rw [hsame c hcb] at hc
    rcases h c hc with hin | ⟨cause, hin⟩
    · exact .inl ((List.mem_cons.mp hin).resolve_left hcb)
    · exact .inr ⟨cause, hevents hin⟩

theorem resolve_keeps_stranded : ∀ (n b : Nat) (underway : List Nat),
    Keeps (Stranded underway) (plan.resolve n b)
  | 0, _, _ => carries_pure ()
  | n + 1, b, underway => by
    intro p hp
    cases hbean : plan.beans[b]? with
    | none => rwa [resolve_of_unregistered hbean]
    | some bean =>
      by_cases hb : p.registry.status b = .fresh
      · have hcheck : Keeps (Stranded (b :: underway)) (plan.check n bean) :=
          check_carries (Hosts.keeps (fun q e _ hq => hq.note e) fun sel =>
            seek_carries (fun q _ hq => hq.note _) (fun q _ _ hq => hq.note _)
              fun c => resolve_keeps_stranded n c (b :: underway)) (.inr fun _ h => h)
        have hbegun : Stranded (b :: underway) (p.setStatus b .resolving) := by
          intro c hc
          rw [status_begin hb] at hc
          split at hc
          · rename_i hcb
            exact .inl (hcb ▸ List.mem_cons_self)
          · exact (hp c hc).imp (List.mem_cons_of_mem b) fun ⟨cause, hin⟩ =>
              ⟨cause, List.mem_cons_of_mem _ hin⟩
        have hnoted : ∀ e q, Stranded (b :: underway) q →
            Stranded underway (q.note (.unresolved b e)) := fun e q hq =>
          hq.leave (fun _ _ => rfl) (List.subset_cons_self _ _) fun _ => ⟨e, List.mem_cons_self⟩
        have hevent : ∀ e : Event, plan.Persists fun q => e ∈ q.events := fun e =>
          persists_events (P := (e ∈ ·)) fun e' _ _ hin => List.mem_cons_of_mem e' hin
        refine after_resolve hbean hb (hcheck.after hbegun) (fun q hq => hq.note _)
          (fun e q hq => hnoted e q hq) (fun e q hq _ => hnoted e q hq) (fun q hq hr => ?_)
          fun exports q hq hr he => ?_
        · have hlt : b < q.registry.marks.length := Registry.lt_length_of_status_eq hr (by decide)
          refine hq.leave (fun c hc => status_discard_of_ne b c q plan hc)
            (fun e hin => (hevent e).discard q b hr hin) fun hleft => ?_
          rw [status_discard_self b q plan hlt] at hleft
          cases hleft
        · have hlt : b < q.registry.marks.length := Registry.lt_length_of_status_eq hr (by decide)
          refine hq.leave (fun c hc => status_settle_of_ne b c bean exports q hc)
            (fun e hin => (hevent e).settle q b bean exports hbean hr he hin) fun hleft => ?_
          rw [status_settle_self b bean exports q hlt] at hleft
          cases hleft
      · rwa [resolve_of_begun hb]

/-! ### When all beans are resolved -/

/-- The fallbacks when all beans are resolved: stuck, or one is left. -/
def Outvoted (plan : Plan) (t : TypeName) (r : Registry) : Prop :=
  plan.Stuck t r ∨ ∃ s, plan.Fallback t s ∧ r.status s = .resolved ∧
    ∀ b, plan.Fallback t b → b ≠ s → r.status b = .deleted

theorem resolveAll_elects (h : Contested t plan.beans) (hsome : ∃ b, plan.Fallback t b)
    (hp : Container.Frozen plan p) :
    After plan.resolveAll p fun x q => x = .ok () → plan.Outvoted t q.registry := by
  have hlen : p.registry.marks.length = plan.beans.length := hp.indexed.length
  have hfresh : ∀ b, plan.Fallback t b → p.registry.status b = .fresh := by
    rintro b ⟨bean, hbean, -⟩
    rw [hp.registry, Registry.status_ofBeans, if_pos (List.getElem?_eq_some_iff.mp hbean).1]
  have hkept : Keeps (plan.Balloting t plan.beans.length) plan.resolveAll :=
    Carries.forM fun b _ => resolve_keeps_ballot h _ b
  refine ((hkept.after ⟨fresh_of_length (Nat.le_of_eq hlen), .pending hfresh⟩).and
    (resolveAll_calm hlen)).mono fun x q ⟨⟨_, hballot⟩, hcalm⟩ hx => ?_
  cases hballot with
  | pending fresh =>
    obtain ⟨b, hb⟩ := hsome
    exact absurd (fresh b hb) (hcalm hx b)
  | stuck stuck => exact .inl stuck
  | elected s fallback resolved deleted => exact .inr ⟨s, fallback, resolved, deleted⟩

/-- A bean that is still being resolved then is one whose resolution has failed. -/
theorem resolveAll_stranded (hp : Container.Frozen plan p) :
    After plan.resolveAll p fun _ q => Stranded [] q := by
  have hkept : Keeps (Stranded []) plan.resolveAll :=
    Carries.forM fun b _ => resolve_keeps_stranded _ b []
  refine hkept.after fun b hb => ?_
  rw [hp.registry, Registry.status_ofBeans] at hb
  split at hb <;> cases hb

/-- `C` is true of the registry and the events when all beans are resolved. -/
def Concludes (C : Registry → List Event → Prop) (m : Moment) (earlier : List Moment) : Prop :=
  m.event = .beansResolved → C m.registry (earlier.map Moment.event)

theorem concludes_of_ne {C : Registry → List Event → Prop} {m : Moment}
    (h : m.event ≠ .beansResolved) (earlier : List Moment) : Concludes C m earlier :=
  fun he => absurd he h

theorem persists_concludes {C : Registry → List Event → Prop} :
    plan.Persists fun p => Throughout (Concludes C) p.history :=
  persists_throughout fun _ ms hm => concludes_of_ne (fun he => by rw [he] at hm; exact hm) ms

theorem concludes_of_frozen {C : Registry → List Event → Prop} (hp : Container.Frozen plan p) :
    Throughout (Concludes C) p.history :=
  .of_forall fun m hm => concludes_of_ne fun he => by
    have haside := hp.aside m.event (List.mem_map_of_mem hm)
    rw [he] at haside
    exact haside

theorem refresh_concludes {C : Registry → List Event → Prop} (hp : Container.Frozen plan p)
    (hC : After plan.resolveAll p fun x q => x = .ok () → C q.registry q.events)
    (configurations : List Configuration) :
    After (plan.refresh configurations) (.start p) fun _ t =>
      Throughout (Concludes C) t.progress.history := by
  have hkept : Keeps (fun p : Progress => Throughout (Concludes C) p.history) plan.resolveAll :=
    resolveAll_keeps persists_concludes
  have hcalm : After plan.resolveAll p _ := resolveAll_calm hp.indexed.length
  refine refresh_keeps configurations ((((hkept.after (concludes_of_frozen hp)).and hcalm).and
    hC).mono fun x q ⟨⟨hq, hcalm⟩, hC⟩ => ?_)
  cases x with
  | error cause => exact hq
  | ok _ =>
    have hlater : ∀ (m : Moment) (ms : List Moment), m.event.FollowsResolution →
        Throughout (Concludes C) ms → Throughout (Concludes C) (m :: ms) := fun m ms hm hms =>
      ⟨concludes_of_ne (fun he => by rw [he] at hm; exact hm) ms, hms⟩
    exact ⟨_, (endures_history hlater).outlasts (fun a e he ha => ⟨ha.1,
        concludes_of_ne (fun hE : e = .beansResolved => by rw [hE] at he; exact he) _, ha.2⟩)
        fun a ha b hb => .inl trivial,
      ⟨hcalm rfl, fun _ => hC rfl, hq⟩, fun a ha => ha.2⟩

/-- No bean is left being resolved but those whose resolution has failed, and the fallbacks are
stuck, or one is left. -/
def Counted (plan : Plan) (t : TypeName) (r : Registry) (es : List Event) : Prop :=
  (∀ b, r.status b = .resolving → ∃ cause, .unresolved b cause ∈ es) ∧
    (Contested t plan.beans → (∃ b, plan.Fallback t b) → plan.Outvoted t r)

theorem resolveAll_counted (t : TypeName) (hp : Container.Frozen plan p) :
    After plan.resolveAll p fun x q => x = .ok () → plan.Counted t q.registry q.events := by
  have helects : After plan.resolveAll p fun x q => x = .ok () → Contested t plan.beans →
      (∃ b, plan.Fallback t b) → plan.Outvoted t q.registry := fun hx hcontested hsome =>
    resolveAll_elects hcontested hsome hp hx
  refine ((resolveAll_stranded hp).and helects).mono fun x q ⟨hstranded, helects⟩ hx => ?_
  exact ⟨fun b hb => (hstranded b hb).resolve_left List.not_mem_nil, helects hx⟩

end Plan

/-! ### Containers -/

namespace Container

theorem lasts_counted (t : TypeName) : Lasts fun plan p =>
    Throughout (Plan.Concludes (plan.Counted t)) p.history where
  congr plan plan' hb _ _ _ h := by
    have hsame : plan'.Counted t = plan.Counted t := by
      unfold Plan.Counted Plan.Outvoted Plan.Stuck Plan.Fallback
      rw [hb]
    rwa [hsame]
  note he h :=
    ⟨Plan.concludes_of_ne (fun hE => by dsimp only at hE; rw [hE] at he; exact he) _, h⟩
  start h := Plan.concludes_of_frozen h
  refresh h configurations := Plan.refresh_concludes h (Plan.resolveAll_counted t h) configurations
  find sel h := (Plan.find_keeps Plan.persists_concludes sel).after h

/-- A bean is left being resolved if its resolution fails, and in no other case. When all
beans are resolved, with whatever conditions the other beans have, then either all fallbacks are
left so, or exactly one of them is active and the others are deleted. None is left so in a run in
which the resolution of none has failed, nor if no condition goes on after a failed lookup. -/
theorem one_fallback_stays (injector : Injector) (compositions : Compositions)
    (ops : List Operation) (t : TypeName) :
    let c := ((empty injector compositions).performAll ops).2
    Contested t c.beans → (∃ bean ∈ c.beans, bean.type = t) →
      (∀ (p : Progress) (n b : Nat), b < c.beans.length → p.registry.status b = .fresh →
        After (c.plan.resolve (n + 1) b) p fun x q =>
          q.registry.status b = .resolving ↔ ∃ e, x = .error e) ∧
      ∀ m ∈ c.progress.history, m.event = .beansResolved →
        (∀ b, m.registry.status b = .resolving → ∃ cause, .unresolved b cause ∈ c.events) ∧
        ((∀ bean ∈ c.beans, Condition.AllPropagate bean.conditions) →
          ∀ b, m.registry.status b ≠ .resolving) ∧
        ((∃ b, c.plan.Fallback t b ∧ (m.registry.status b ≠ .resolving ∨
            ∀ cause, .unresolved b cause ∉ c.events)) →
          ∃ s, c.plan.Fallback t s ∧ m.registry.status s = .resolved ∧
            ∀ b, c.plan.Fallback t b → b ≠ s → m.registry.status b = .deleted) := by
  intro c hcontested ⟨bean, hin, htype⟩
  have h : Has _ c := performAll_lasts (lasts_counted t) injector compositions ops
  have hs : Has _ c := performAll_lasts lasts_steadfast injector compositions ops
  obtain ⟨place, hplace⟩ := List.mem_iff_getElem?.mp hin
  refine ⟨fun p n b hlt hfresh => Plan.resolve_leaves_resolving
    (List.getElem?_eq_getElem (show b < c.plan.beans.length from hlt)) hfresh n, fun m hm he => ?_⟩
  have hn : c.phase ≠ .unrefreshed := h.begun hm (by rw [he]; exact id)
  obtain ⟨later, earlier, hsplit⟩ := List.append_of_mem hm
  have hlasting : Throughout _ c.progress.history := h.since hn
  rw [hsplit] at hlasting
  obtain ⟨hfailed, hvote⟩ := hlasting.moment he
  have hleft : ∀ b, m.registry.status b = .resolving → ∃ cause, .unresolved b cause ∈ c.events := by
    intro b hb
    obtain ⟨cause, hcause⟩ := hfailed b hb
    refine ⟨cause, ?_⟩
    show _ ∈ c.progress.history.map Moment.event
    rw [hsplit, List.map_append]
    exact List.mem_append_right _ (List.mem_cons_of_mem _ hcause)
  refine ⟨hleft, fun hprop b hr => ?_, fun ⟨b, hfallback, hb⟩ => ?_⟩
  · have hdecided : m.registry.Decided :=
      ((hs.since hn (.inl hprop)).resolved m hm he).decided hprop
    have := hdecided b
    rw [hr] at this
    exact this.elim nofun nofun
  · refine (hvote hcontested ⟨place, bean, hplace, htype⟩).resolve_left fun hstuck => ?_
    have hr : m.registry.status b = .resolving := hstuck b hfallback
    rcases hb with hb | hb
    · exact hb hr
    · obtain ⟨cause, hcause⟩ := hleft b hr
      exact hb cause hcause

/-- Three clocks for the case that there is no other, and an application that asks for the
second of them. -/
def clocks : List Bean :=
  let clock (name : String) (site : Nat) : Bean :=
    { Bean.plain (.of "app::Clock") (.main site) (.constructor ⟨[], .part, name, none⟩) with
      name := some name
      conditions := [.beans .none (.type (.of "app::Clock"))] }
  [{ Bean.plain (.of "app::App") (.main 1) (.constructor ⟨[], .part, "app", none⟩) with
      conditions := [.beans .some (.name "solar")] },
    clock "lunar" 2, clock "solar" 3, clock "atomic" 4]

theorem one_fallback_stays_of_clocks :
    let c := ((empty .standard ⟨[]⟩).performAll (clocks.map .register ++ [.refresh])).2
    ∃ m ∈ c.progress.history, ∃ s, c.plan.Fallback (.of "app::Clock") s ∧
      m.registry.status s = .resolved ∧
      ∀ b, c.plan.Fallback (.of "app::Clock") b → b ≠ s → m.registry.status b = .deleted := by
  have hstays := one_fallback_stays .standard ⟨[]⟩ (clocks.map .register ++ [.refresh]) (.of "app::Clock")
  have hstocked := (performAll_keeps_stocked (P := fun bean => bean.composite = false ∧
      (bean.type = (.of "app::Clock") → bean.conditions = [.beans .none (.type (.of "app::Clock"))]) ∧
      (bean.type ≠ (.of "app::Clock") → (.of "app::Clock") ∉ bean.exports)) (Q := fun _ => True)
    (X := fun _ => True) (fun _ _ _ _ _ => trivial) (clocks.map .register ++ [.refresh])
    (empty .standard ⟨[]⟩) (by simp [clocks, Bean.plain, TypeName.of]) (by simp) (stocked_empty _ _) trivial).1
  have hsome : ((empty .standard ⟨[]⟩).performAll
      (clocks.map .register ++ [.refresh])).2.beans.any (·.type = (.of "app::Clock")) := by decide +kernel
  have hany : ((empty .standard ⟨[]⟩).performAll
      (clocks.map .register ++ [.refresh])).2.progress.history.any
        fun m => m.event matches .beansResolved && m.registry.status 1 ≠ .resolving := by
    decide +kernel
  have hfirst : ((empty .standard ⟨[]⟩).performAll
      (clocks.map .register ++ [.refresh])).2.beans[1]?.map (·.type) = some (.of "app::Clock") := by
    decide +kernel
  generalize ((empty .standard ⟨[]⟩).performAll (clocks.map .register ++ [.refresh])).2 = c
    at hstays hstocked hsome hany hfirst ⊢
  obtain ⟨bean, hin, htype⟩ := List.any_eq_true.mp hsome
  obtain ⟨-, hone⟩ := hstays ⟨fun b hb => (hstocked.beans b hb).1,
    fun b hb => (hstocked.beans b hb).2.1, fun b hb => (hstocked.beans b hb).2.2⟩
    ⟨bean, hin, of_decide_eq_true htype⟩
  obtain ⟨⟨e, r⟩, hm, he⟩ := List.any_eq_true.mp hany
  obtain ⟨he, hr⟩ := (Bool.and_eq_true _ _).mp he
  have hfallback : c.plan.Fallback (.of "app::Clock") 1 := by
    obtain ⟨bean, hbean, htype⟩ := Option.map_eq_some_iff.mp hfirst
    exact ⟨bean, hbean, htype⟩
  cases e with
  | beansResolved => exact ⟨_, hm, (hone _ hm rfl).2.2 ⟨1, hfallback, .inl (of_decide_eq_true hr)⟩⟩
  | _ => cases he

end Container
end Inversion
