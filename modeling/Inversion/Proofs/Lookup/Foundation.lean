/-
# No bean without foundation

If conditions ask for beans only to be there, more active beans never make one of them fail.
Then there is a least set of beans that contains each bean whose conditions hold among the
set. A bean is active only if it belongs to this set: a bean that is being resolved is passed
over, so what its conditions have found had been resolved before, in its turn by what had been
resolved before it. Beans that only ask for each other are deleted.
-/
import Mathlib.Order.FixedPoints
import Mathlib.Order.CompletePartialOrder
import Inversion.Proofs.Lookup.Asking

namespace Inversion

/-! ### Conditions that ask for beans -/

/-- The probe looks nothing up. -/
def Probe.Blind : Probe → Prop
  | answer _ => True
  | fail _ => True
  | raise _ => True
  | note _ next => next.Blind
  | find _ _ => False
  | attempt _ _ => False
  | properties next => ∀ properties, (next properties).Blind
  | cancelled next => ∀ b, (next b).Blind

mutual
/-- The condition looks nothing up. -/
def Condition.Blind : Condition → Prop
  | .property _ _ _ => True
  | .missingProperty _ => True
  | .beans _ _ => False
  | .not c => c.Blind
  | .all cs => Condition.AllBlind cs
  | .any cs => Condition.AllBlind cs
  | .probe pr => pr.Blind
  | .context _ c => c.Blind

def Condition.AllBlind : List Condition → Prop
  | [] => True
  | c :: cs => c.Blind ∧ Condition.AllBlind cs
end

mutual
/-- The condition asks for beans only to be there, and only in groups; what looks nothing
up may be negated. -/
def Condition.Affirmative : Condition → Prop
  | .property _ _ _ => True
  | .missingProperty _ => True
  | .beans expectation _ => expectation = .some
  | .not c => c.Blind
  | .all cs => Condition.AllAffirmative cs
  | .any cs => Condition.AllAffirmative cs
  | .probe pr => pr.Blind
  | .context _ c => c.Affirmative

def Condition.AllAffirmative : List Condition → Prop
  | [] => True
  | c :: cs => c.Affirmative ∧ Condition.AllAffirmative cs
end

theorem Probe.propagates_of_blind : ∀ pr : Probe, pr.Blind → pr.Propagates
  | answer _, _ => trivial
  | fail _, _ => trivial
  | raise _, _ => trivial
  | note _ next, h => Probe.propagates_of_blind next h
  | properties next, h => fun properties => Probe.propagates_of_blind (next properties) (h properties)
  | cancelled next, h => fun b => Probe.propagates_of_blind (next b) (h b)

mutual
theorem Condition.propagates_of_blind : ∀ c : Condition, c.Blind → c.Propagates
  | .property _ _ _, _ => trivial
  | .missingProperty _, _ => trivial
  | .not c, h => Condition.propagates_of_blind c h
  | .all cs, h => Condition.allPropagate_of_allBlind cs h
  | .any cs, h => Condition.allPropagate_of_allBlind cs h
  | .probe pr, h => pr.propagates_of_blind h
  | .context _ c, h => Condition.propagates_of_blind c h

theorem Condition.allPropagate_of_allBlind :
    ∀ cs : List Condition, Condition.AllBlind cs → Condition.AllPropagate cs
  | [], _ => trivial
  | c :: cs, h => ⟨Condition.propagates_of_blind c h.1, Condition.allPropagate_of_allBlind cs h.2⟩
end

mutual
theorem Condition.propagates_of_affirmative : ∀ c : Condition, c.Affirmative → c.Propagates
  | .property _ _ _, _ => trivial
  | .missingProperty _, _ => trivial
  | .beans _ _, _ => trivial
  | .not c, h => Condition.propagates_of_blind c h
  | .all cs, h => Condition.allPropagate_of_allAffirmative cs h
  | .any cs, h => Condition.allPropagate_of_allAffirmative cs h
  | .probe pr, h => pr.propagates_of_blind h
  | .context _ c, h => Condition.propagates_of_affirmative c h

theorem Condition.allPropagate_of_allAffirmative :
    ∀ cs : List Condition, Condition.AllAffirmative cs → Condition.AllPropagate cs
  | [], _ => trivial
  | c :: cs, h =>
    ⟨Condition.propagates_of_affirmative c h.1, Condition.allPropagate_of_allAffirmative cs h.2⟩
end

/-! ### Conditions among a set of beans -/

mutual
/-- The condition holds if the active beans are those of a set. A probe has to come to its
answer without them. -/
def Condition.HoldsAmong (plan : Plan) (s : Set Nat) : Condition → Prop
  | .property key value ifMissing => propertyHolds (plan.properties.get? key) value ifMissing
  | .missingProperty key => !plan.properties.contains key
  | .beans .some sel => ∃ b ∈ s, plan.answersTo sel b
  | .beans .none sel => ∀ b ∈ s, ¬ plan.answersTo sel b
  | .beans .single sel => ∃! b, b ∈ s ∧ plan.answersTo sel b
  | .not c => ¬ c.HoldsAmong plan s
  | .all cs => AllHoldAmong plan s cs
  | .any cs => AnyHoldsAmong plan s cs
  | .probe pr => pr.Yields plan.backdrop (fun _ _ => False) true
  | .context _ c => c.HoldsAmong plan s

def AllHoldAmong (plan : Plan) (s : Set Nat) : List Condition → Prop
  | [] => True
  | c :: cs => c.HoldsAmong plan s ∧ AllHoldAmong plan s cs

def AnyHoldsAmong (plan : Plan) (s : Set Nat) : List Condition → Prop
  | [] => False
  | c :: cs => c.HoldsAmong plan s ∨ AnyHoldsAmong plan s cs
end

section
variable {plan : Plan} {s s' : Set Nat} {known : Findings}

theorem Probe.yields_of_blind {backdrop : Backdrop} {known known' : Findings} :
    ∀ (pr : Probe) (v : Bool), pr.Blind → pr.Yields backdrop known v → pr.Yields backdrop known' v
  | answer _, _, _, hv => hv
  | note _ next, v, h, hv => Probe.yields_of_blind next v h hv
  | properties next, v, h, hv => Probe.yields_of_blind (next backdrop.properties) v (h _) hv
  | cancelled next, v, h, hv => Probe.yields_of_blind (next backdrop.cancelled) v (h _) hv

theorem Probe.holds_iff_of_blind (pr : Probe) (v : Bool) (h : pr.Blind)
    (hv : pr.Yields plan.backdrop known v) :
    pr.Yields plan.backdrop (fun _ _ => False) true ↔ v = true := by
  have hv : pr.Yields plan.backdrop (fun _ _ => False) v := pr.yields_of_blind v h hv
  refine ⟨fun ht => pr.yields_unique (fun _ _ _ h => h.elim) v true hv ht, ?_⟩
  rintro rfl
  exact hv

mutual
/-- Conditions that look nothing up hold or not whatever beans there are. -/
theorem Condition.holdsAmong_congr : ∀ c : Condition, c.Blind →
    (c.HoldsAmong plan s ↔ c.HoldsAmong plan s')
  | .property _ _ _, _ => .rfl
  | .missingProperty _, _ => .rfl
  | .not c, h => not_congr (Condition.holdsAmong_congr c h)
  | .all cs, h => allHoldAmong_congr cs h
  | .any cs, h => anyHoldsAmong_congr cs h
  | .probe _, _ => .rfl
  | .context _ c, h => Condition.holdsAmong_congr c h

theorem allHoldAmong_congr : ∀ cs : List Condition, Condition.AllBlind cs →
    (AllHoldAmong plan s cs ↔ AllHoldAmong plan s' cs)
  | [], _ => .rfl
  | c :: cs, h => and_congr (Condition.holdsAmong_congr c h.1) (allHoldAmong_congr cs h.2)

theorem anyHoldsAmong_congr : ∀ cs : List Condition, Condition.AllBlind cs →
    (AnyHoldsAmong plan s cs ↔ AnyHoldsAmong plan s' cs)
  | [], _ => .rfl
  | c :: cs, h => or_congr (Condition.holdsAmong_congr c h.1) (anyHoldsAmong_congr cs h.2)
end

mutual
/-- What a condition comes to that looks nothing up tells whether it holds. -/
theorem Condition.holdsAmong_iff : ∀ (c : Condition) (v : Bool), c.Blind →
    c.Yields plan.backdrop known v → (c.HoldsAmong plan s ↔ v = true)
  | .property _ _ _, _, _, hv => iff_of_eq (congrArg (· = true) hv)
  | .missingProperty _, _, _, hv => iff_of_eq (congrArg (· = true) hv)
  | .not c, v, h, hv => by
    refine (not_congr (Condition.holdsAmong_iff c (!v) h hv)).trans ?_
    cases v <;> decide
  | .all cs, v, h, hv => allHoldAmong_iff cs v h hv
  | .any cs, v, h, hv => anyHoldsAmong_iff cs v h hv
  | .probe pr, v, h, hv => pr.holds_iff_of_blind v h hv
  | .context _ c, v, h, hv => Condition.holdsAmong_iff c v h hv

theorem allHoldAmong_iff : ∀ (cs : List Condition) (v : Bool), Condition.AllBlind cs →
    AllYield plan.backdrop known cs v → (AllHoldAmong plan s cs ↔ v = true)
  | [], _, _, hv => iff_of_true trivial hv
  | c :: cs, v, h, hv => by
    rcases hv with ⟨hc, hv⟩ | ⟨hc, rfl⟩
    · have hholds : c.HoldsAmong plan s := (Condition.holdsAmong_iff c true h.1 hc).mpr rfl
      exact (and_iff_right hholds).trans (allHoldAmong_iff cs v h.2 hv)
    · refine iff_of_false (fun hall => ?_) Bool.false_ne_true
      cases (Condition.holdsAmong_iff c false h.1 hc).mp hall.1

theorem anyHoldsAmong_iff : ∀ (cs : List Condition) (v : Bool), Condition.AllBlind cs →
    AnyYields plan.backdrop known cs v → (AnyHoldsAmong plan s cs ↔ v = true)
  | [], _, _, hv => iff_of_false id (by rw [hv]; exact Bool.false_ne_true)
  | c :: cs, v, h, hv => by
    rcases hv with ⟨hc, hv⟩ | ⟨hc, rfl⟩
    · have hfails : ¬ c.HoldsAmong plan s := fun hholds => by
        cases (Condition.holdsAmong_iff c false h.1 hc).mp hholds
      exact (or_iff_right hfails).trans (anyHoldsAmong_iff cs v h.2 hv)
    · exact iff_of_true (.inl ((Condition.holdsAmong_iff c true h.1 hc).mpr rfl)) rfl
end

mutual
theorem Condition.holdsAmong_mono (hs : s ⊆ s') : ∀ c : Condition, c.Affirmative →
    c.HoldsAmong plan s → c.HoldsAmong plan s'
  | .property _ _ _, _, hc => hc
  | .missingProperty _, _, hc => hc
  | .beans .some _, _, ⟨b, hb, hc⟩ => ⟨b, hs hb, hc⟩
  | .not c, h, hc => fun hc' => hc ((Condition.holdsAmong_congr c h).mpr hc')
  | .all cs, h, hc => allHoldAmong_mono hs cs h hc
  | .any cs, h, hc => anyHoldsAmong_mono hs cs h hc
  | .probe _, _, hc => hc
  | .context _ c, h, hc => Condition.holdsAmong_mono hs c h hc

theorem allHoldAmong_mono (hs : s ⊆ s') : ∀ cs : List Condition, Condition.AllAffirmative cs →
    AllHoldAmong plan s cs → AllHoldAmong plan s' cs
  | [], _, _ => trivial
  | c :: cs, h, hc => ⟨Condition.holdsAmong_mono hs c h.1 hc.1, allHoldAmong_mono hs cs h.2 hc.2⟩

theorem anyHoldsAmong_mono (hs : s ⊆ s') : ∀ cs : List Condition, Condition.AllAffirmative cs →
    AnyHoldsAmong plan s cs → AnyHoldsAmong plan s' cs
  | c :: cs, h, hc => hc.imp (Condition.holdsAmong_mono hs c h.1) (anyHoldsAmong_mono hs cs h.2)
end

mutual
/-- If beans are found only among the set, then a condition that comes to `true` holds there. -/
theorem Condition.holdsAmong_of_yields
    (hk : ∀ sel found, known sel found → ∀ b ∈ found, b ∈ s ∧ plan.answersTo sel b) :
    ∀ c : Condition, c.Affirmative → c.Yields plan.backdrop known true → c.HoldsAmong plan s
  | .property _ _ _, _, hv => hv
  | .missingProperty _, _, hv => hv
  | .beans .some sel, _, ⟨found, hfound, hv⟩ => by
    obtain ⟨b, hb⟩ := List.exists_mem_of_length_pos (of_decide_eq_true hv)
    exact ⟨b, hk sel found hfound b hb⟩
  | .not c, h, hv => fun hc => by cases (Condition.holdsAmong_iff c false h hv).mp hc
  | .all cs, h, hv => allHoldAmong_of_yield hk cs h hv
  | .any cs, h, hv => anyHoldsAmong_of_yields hk cs h hv
  | .probe pr, h, hv => (pr.holds_iff_of_blind true h hv).mpr rfl
  | .context _ c, h, hv => Condition.holdsAmong_of_yields hk c h hv

theorem allHoldAmong_of_yield
    (hk : ∀ sel found, known sel found → ∀ b ∈ found, b ∈ s ∧ plan.answersTo sel b) :
    ∀ cs : List Condition, Condition.AllAffirmative cs → AllYield plan.backdrop known cs true →
      AllHoldAmong plan s cs
  | [], _, _ => trivial
  | c :: cs, h, hv => by
    obtain ⟨hc, hcs⟩ := hv.resolve_right fun hv => Bool.false_ne_true hv.2.symm
    exact ⟨Condition.holdsAmong_of_yields hk c h.1 hc, allHoldAmong_of_yield hk cs h.2 hcs⟩

theorem anyHoldsAmong_of_yields
    (hk : ∀ sel found, known sel found → ∀ b ∈ found, b ∈ s ∧ plan.answersTo sel b) :
    ∀ cs : List Condition, Condition.AllAffirmative cs → AnyYields plan.backdrop known cs true →
      AnyHoldsAmong plan s cs
  | [], _, hv => (Bool.false_ne_true hv.symm).elim
  | c :: cs, h, hv => by
    rcases hv with ⟨-, hv⟩ | ⟨hv, -⟩
    · exact .inr (anyHoldsAmong_of_yields hk cs h.2 hv)
    · exact .inl (Condition.holdsAmong_of_yields hk c h.1 hv)
end

end

/-! ### The least set -/

namespace Plan

variable {plan : Plan} {q : Progress}

def Affirmative (plan : Plan) : Prop :=
  ∀ bean ∈ plan.beans, Condition.AllAffirmative bean.conditions

theorem Affirmative.allPropagate (h : plan.Affirmative) :
    ∀ bean ∈ plan.beans, Condition.AllPropagate bean.conditions :=
  fun bean hbean => Condition.allPropagate_of_allAffirmative _ (h bean hbean)

/-- The beans whose conditions hold if the active beans are those of a set. -/
def grant (h : plan.Affirmative) : Set Nat →o Set Nat where
  toFun s := {b | ∃ bean, plan.beans[b]? = some bean ∧ AllHoldAmong plan s bean.conditions}
  monotone' := fun _ _ hs _ ⟨bean, hbean, hc⟩ =>
    ⟨bean, hbean, allHoldAmong_mono hs _ (h bean (List.mem_of_getElem? hbean)) hc⟩

/-- The beans that a history shows to be resolved. -/
def resolvedBy (earlier : List Moment) : Set Nat :=
  {b | .status b .resolved ∈ earlier.map Moment.event}

namespace Accounted

/-- What is resolved is so on the grounds of what has been resolved before. -/
theorem holdsAmong (h : plan.Accounted q) (haff : plan.Affirmative) {later earlier : List Moment}
    {m : Moment} {b : Nat} {bean : Bean} (hq : q.history = later ++ m :: earlier)
    (hm : m.event = .status b .resolved) (hbean : plan.beans[b]? = some bean) :
    AllHoldAmong plan (resolvedBy earlier) bean.conditions := by
  have hevaluated := h.evaluated
  rw [hq] at hevaluated
  have hyield : AllYield plan.backdrop (Asked b earlier) bean.conditions true :=
    (hevaluated.moment b bean hbean).1 hm
  have hsplit : q.history = (later ++ [m]) ++ earlier := by rw [hq, List.append_cons]
  exact allHoldAmong_of_yield (fun _ _ hfound _ hc => h.found_resolved hsplit hfound hc) _
    (haff bean (List.mem_of_getElem? hbean)) hyield

/-- The induction is along the history: what is resolved first needs no other bean. -/
theorem resolvedBy_subset (h : plan.Accounted q) (haff : plan.Affirmative) :
    ∀ later earlier, q.history = later ++ earlier → resolvedBy earlier ⊆ (grant haff).lfp
  | _, [], _ => fun _ hb => absurd hb List.not_mem_nil
  | later, m :: earlier, hq => by
    have hsplit : q.history = (later ++ [m]) ++ earlier := by rw [hq, List.append_cons]
    have ih : resolvedBy earlier ⊆ (grant haff).lfp :=
      h.resolvedBy_subset haff (later ++ [m]) earlier hsplit
    intro b hb
    rcases List.mem_cons.mp hb with hm | hearlier
    · obtain ⟨bean, hbean⟩ := h.exists_bean hq hb
      have hgranted : b ∈ grant haff (resolvedBy earlier) :=
        ⟨bean, hbean, h.holdsAmong haff hq hm.symm hbean⟩
      rw [← (grant haff).map_lfp]
      exact (grant haff).monotone ih hgranted
    · exact ih hearlier

/-- The active beans are those that have been resolved. -/
theorem mem_active_iff (h : plan.Accounted q) (b : Nat) :
    b ∈ q.registry.active ↔ b ∈ resolvedBy q.history := by
  refine Registry.mem_active.trans (Iff.trans ?_ (h.told.current.settled b).symm)
  exact ⟨fun hb => (h.settled_or_deleted b).resolve_right hb, Status.ne_deleted_of_isSettled⟩

theorem active_subset (h : plan.Accounted q) (haff : plan.Affirmative) :
    {b | b ∈ q.registry.active} ⊆ (grant haff).lfp := fun b hb =>
  h.resolvedBy_subset haff [] q.history rfl ((h.mem_active_iff b).mp hb)

/-- Beans of which none is granted by the others outside are deleted. -/
theorem deleted_of_unfounded (h : plan.Accounted q) (haff : plan.Affirmative) {s : Set Nat}
    (hs : ∀ b ∈ s, b ∉ grant haff sᶜ) {b : Nat} (hb : b ∈ s) : q.registry.status b = .deleted := by
  have hclosed : (grant haff).lfp ≤ sᶜ := (grant haff).lfp_le fun c hc hin => hs c hin hc
  by_contra hne
  exact hclosed (h.active_subset haff (Registry.mem_active.mpr hne)) hb

end Accounted
end Plan

/-! ### Containers -/

namespace Container

/-- With any injector, for any operations that lead to a refresh: if the beans ask for others
only to be there, outside of negations, and the resolution of all beans succeeds, then the
active beans belong to the least set that contains all beans whose conditions hold among
it. Each is resolved when its conditions hold among those resolved before, which are all
active. If the conditions of no bean of a set hold among the beans outside it, then all beans of
the set are deleted. -/
theorem active_beans_founded (injector : Injector) (compositions : Compositions)
    (ops : List Operation) :
    let c := ((empty injector compositions).performAll ops).2
    let f := c.freeze.2
    c.phase = .unrefreshed → ∀ (haff : f.plan.Affirmative) (q : Progress),
      outcome f.plan.resolveAll f.progress = (.ok (), q) →
        {b | b ∈ q.registry.active} ⊆ (Plan.grant haff).lfp ∧
        (∀ b, b ∈ q.registry.active ↔ b ∈ Plan.resolvedBy q.history) ∧
        (∀ later m earlier b bean, q.history = later ++ m :: earlier →
          m.event = .status b .resolved → f.beans[b]? = some bean →
            AllHoldAmong f.plan (Plan.resolvedBy earlier) bean.conditions) ∧
        ∀ s : Set Nat, (∀ b ∈ s, b ∉ Plan.grant haff sᶜ) →
          ∀ b ∈ s, q.registry.status b = .deleted := by
  intro c f hnew haff q hq
  have hfrozen : Frozen f.plan f.progress :=
    (performAll_lasts lasts_thrifty injector compositions ops).frozen hnew
  have haccounted : f.plan.Accounted q := Plan.resolveAll_accounted haff.allPropagate hfrozen hq
  exact ⟨haccounted.active_subset haff, haccounted.mem_active_iff,
    fun later m earlier b bean hsplit hm hbean => haccounted.holdsAmong haff hsplit hm hbean,
    fun s hs b hb => haccounted.deleted_of_unfounded haff hs hb⟩

/-- Three beans that ask for each other in a ring, and one that a missing property lets in. -/
def ring : List Operation :=
  let bean (n : Nat) (type : String) (conditions : List Condition) : Bean :=
    { Bean.plain (.of type) (.main n) (.constructor ⟨[], .part, type, none⟩) with conditions }
  [.register (bean 1 "app::First" [.beans .some (.type (.of "app::Second"))]),
    .register (bean 2 "app::Second" [.all [.beans .some (.parse "app::Third:")]]),
    .register (bean 3 "app::Third"
      [.any [.property "ring" none false, .beans .some (.type (.of "app::First"))]]),
    .register (bean 4 "app::Own" [.not (.property "ring" none false)])]

theorem active_beans_founded_of_ring :
    let c := ((empty .standard ⟨[]⟩).performAll ring).2
    let q := (outcome c.freeze.2.plan.resolveAll c.freeze.2.progress).2
    c.phase = .unrefreshed ∧ q.registry.active = [3] ∧
      ∃ haff : c.freeze.2.plan.Affirmative, 3 ∈ (Plan.grant haff).lfp ∧
        (∀ b < 3, b ∉ Plan.grant haff {c | c < 3}ᶜ) ∧ ∀ b < 3, q.registry.status b = .deleted := by
  intro c q
  have hnew : c.phase = .unrefreshed := by decide +kernel
  have hactive : q.registry.active = [3] := by decide +kernel
  have hconditions : c.freeze.2.plan.beans.map Bean.conditions =
      [[.beans .some (.type (.of "app::Second"))], [.all [.beans .some (.parse "app::Third:")]],
        [.any [.property "ring" none false, .beans .some (.type (.of "app::First"))]],
        [.not (.property "ring" none false)]] := rfl
  have haff : c.freeze.2.plan.Affirmative := by
    have hall : ∀ cs ∈ c.freeze.2.plan.beans.map Bean.conditions, Condition.AllAffirmative cs := by
      rw [hconditions]
      simp [Condition.AllAffirmative, Condition.Affirmative, Condition.Blind]
    exact fun bean hbean => hall _ (List.mem_map_of_mem hbean)
  have hmatch : ∀ sel ∈ [.type (.of "app::Second"), .parse "app::Third:", .type (.of "app::First")],
      ¬ ∃ b ∈ ({c | c < 3}ᶜ : Set Nat), c.freeze.2.plan.answersTo sel b := by
    have hown : ∀ sel ∈ [.type (.of "app::Second"), .parse "app::Third:", .type (.of "app::First")],
      c.freeze.2.plan.answersTo sel 3 = false := by decide +kernel
    rintro sel hsel ⟨b, hb, hanswers⟩
    have hlt : b < 4 := Plan.lt_length_of_answersTo hanswers
    obtain rfl : b = 3 := by
      have hb : ¬ b < 3 := hb
      omega
    rw [hown sel hsel] at hanswers
    cases hanswers
  have hout : ∀ b < 3, b ∉ Plan.grant haff {c | c < 3}ᶜ := by
    rintro b hb ⟨bean, hbean, hholds⟩
    have hin : (c.freeze.2.plan.beans.map Bean.conditions)[b]? = some bean.conditions := by
      rw [List.getElem?_map, hbean]
      rfl
    rw [hconditions] at hin
    obtain rfl | rfl | rfl : b = 0 ∨ b = 1 ∨ b = 2 := by omega
    · rw [← Option.some.inj hin] at hholds
      exact hmatch _ (by simp) hholds.1
    · rw [← Option.some.inj hin] at hholds
      exact hmatch _ (by simp) hholds.1.1
    · rw [← Option.some.inj hin] at hholds
      rcases hholds.1 with hproperty | hfirst | hfirst
      · cases hproperty
      · exact hmatch _ (by simp) hfirst
      · exact hfirst
  have hok : (outcome c.freeze.2.plan.resolveAll c.freeze.2.progress).1 = .ok () := by
    decide +kernel
  have hresolved : outcome c.freeze.2.plan.resolveAll c.freeze.2.progress = (.ok (), q) := by
    rw [← hok]
  have hfounded := active_beans_founded .standard ⟨[]⟩ ring hnew haff q hresolved
  exact ⟨hnew, hactive, haff, hfounded.1 (by rw [hactive]; exact List.mem_cons_self), hout,
    fun b hb => hfounded.2.2.2 {c | c < 3} hout b hb⟩

end Container
end Inversion
