/-
# Every bean is created once

A container with the standard injector calls no constructor and no hook twice,
whatever is asked of it, and its wirings end: what a wiring beyond their bound would
do makes no difference. If its refresh completes, every bean that is not deleted is
wired, no creation has failed, not even unnoticed, every bean was done before the
constructor of one that received it was called, and the path is empty
(`refresh_creates_once`).
-/
import Inversion.Proofs.Closing
import Inversion.Proofs.Wiring.Bound

namespace Inversion
namespace Container

variable {c : Container}

theorem Orderly.path (h : Orderly c) (hn : c.phase = .unrefreshed)
    (hr : c.refresh.1 = .ok (.ok ())) : c.freeze.2.course.2.stack = [] := by
  have hd : c.freeze.1 = none := by
    cases hf : c.freeze.1 with
    | none => rfl
    | some panic =>
      unfold refresh at hr
      rw [hn, show c.freeze = (some panic, c.freeze.2) from Prod.ext hf rfl] at hr
      cases hr
  rw [refresh_of_distinct hn hd] at hr
  obtain ⟨ds, hds⟩ := complete_ok_iff.mp hr
  obtain ⟨hinjector, -, hidle, hlen⟩ := h.freeze hn
  have hends : c.freeze.2.plan.Ends c.freeze.2.course.1 c.freeze.2.course.2 :=
    Plan.refresh_ends hinjector c.freeze.2.configurations hidle hlen
  rcases hends.finished with ⟨_, _, _, _, _, hstack, _⟩ | ⟨e, he, _⟩
  · exact hstack
  · rw [hds] at he
    cases he

theorem refresh_creates_once (compositions : Compositions) (ops : List Operation) :
    let c := ((empty .standard compositions).performAll ops).2
    (∀ b bean, c.beans[b]? = some bean → milestones b c.events <+: bean.milestones) ∧
    (∀ (beyond : Nat → Wiring Unit) (b : Nat) (a : Assembly),
      a.registry.marks.length ≤ c.beans.length →
        outcome (c.plan.wireBeyond beyond (c.beans.length + 1) b) a =
          outcome (c.plan.wireBean b) a) ∧
    (c.phase = .refreshed →
      (∀ b, c.registry.status b ≠ .deleted → c.registry.status b = .wired) ∧
      (∀ b cause, .creationEnded b (some cause) ∉ c.events) ∧
      (∀ b bean, c.beans[b]? = some bean →
        milestones b c.events = if c.registry.status b = .deleted then [] else bean.milestones) ∧
      ∀ later earlier x y, c.events = later ++ .received (.bean y) x :: earlier →
        (∀ bean, c.beans[x]? = some bean → milestones x earlier = bean.milestones) ∧
          milestones y earlier = []) ∧
    (c.phase = .unrefreshed → c.refresh.1 = .ok (.ok ()) → c.freeze.2.course.2.stack = []) := by
  intro c
  have h : Orderly c := performAll_orderly compositions ops
  refine ⟨h.begins, fun beyond b a ha => ?_, fun hr => ?_, h.path⟩
  · have hn : a.registry.unbuilt.card < c.beans.length + 1 :=
      Nat.lt_succ_of_le (Registry.card_having_le.trans ha)
    have hstd : c.plan.injector = .standard := h.injector
    rw [Plan.wireBean_standard hstd]
    exact (Plan.wireBeyond_agrees hstd beyond (c.beans.length + 1) b a hn).1
  · have hc := h.complete hr
    refine ⟨hc.all, hc.unfailed, fun b bean hb => ?_, fun later earlier x y he => ?_⟩
    · by_cases hd : c.registry.status b = .deleted
      · rw [if_pos hd]
        exact hc.deleted b hd
      · rw [if_neg hd]
        exact hc.wired b bean hb (hc.all b hd)
    · have hturn := hc.inTurn
      rw [show c.progress.events = _ from he] at hturn
      exact hturn.at

theorem refresh_creates_once_of_chain :
    let c := ((empty .standard ⟨[]⟩).performAll chain).2
    c.phase = .refreshed ∧ c.registry.status 2 = .wired :=
  ⟨by decide +kernel, ((refresh_creates_once ⟨[]⟩ chain).2.2.1 (by decide +kernel)).1 2
    (by decide +kernel)⟩

end Container
end Inversion
