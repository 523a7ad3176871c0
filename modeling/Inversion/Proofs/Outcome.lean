/-
# What computations come to

Resolutions and wirings are computations on a state that may fail. `outcome`
runs one, and `After x s Q` says that `Q` holds of what `x` comes to from `s`: of
its result, a value or a failure, and of the state behind it. One equation for
each way of putting computations together opens a program step by step.

Most facts are about states alone. `Carries J K x` says that `x` takes a state
with `J` to one with `J` again, or fails in one with `K`; `Keeps J x` says that
`x` keeps `J` whether it fails or not. `Agrees J x y` says that besides `y` comes to
the same. Two are about failure: `Explains J E x` says that `x` keeps `J`, and that `E` holds of
what it fails with and of the state behind it, and `Confines J E x` that it fails with `E` only.
`Hinges J C D x` is about success: `x` succeeds only if `C`, and does if `D`.
-/

namespace Inversion

section
variable {σ ε δ α β : Type}

/-- The result of a computation, and the state behind it. -/
def outcome (x : ExceptT ε (StateM σ) α) (s : σ) : Except ε α × σ :=
  (x.run).run s

/-- What a computation comes to has the property `Q`. -/
def After (x : ExceptT ε (StateM σ) α) (s : σ) (Q : Except ε α → σ → Prop) : Prop :=
  Q (outcome x s).1 (outcome x s).2

/-! ### Steps of a program -/

theorem outcome_bind (x : ExceptT ε (StateM σ) α) (f : α → ExceptT ε (StateM σ) β) (s : σ) :
    outcome (x >>= f) s =
      match outcome x s with
      | (.ok a, t) => outcome (f a) t
      | (.error e, t) => (.error e, t) := by
  show (match outcome x s with
    | (r, t) => outcome (ExceptT.mk (ExceptT.bindCont f r)) t) = _
  rcases outcome x s with ⟨_ | _, _⟩ <;> rfl

variable {s : σ} {Q R : Except ε α → σ → Prop}

@[simp] theorem after_pure (a : α) : After (pure a : ExceptT ε (StateM σ) α) s Q ↔ Q (.ok a) s :=
  Iff.rfl

@[simp] theorem after_throw (e : ε) :
    After (throw e : ExceptT ε (StateM σ) α) s Q ↔ Q (.error e) s :=
  Iff.rfl

@[simp] theorem after_get {Q : Except ε σ → σ → Prop} :
    After (get : ExceptT ε (StateM σ) σ) s Q ↔ Q (.ok s) s :=
  Iff.rfl

@[simp] theorem after_set {Q : Except ε PUnit → σ → Prop} (t : σ) :
    After (set t : ExceptT ε (StateM σ) PUnit) s Q ↔ Q (.ok ⟨⟩) t :=
  Iff.rfl

@[simp] theorem after_modify {Q : Except ε PUnit → σ → Prop} (f : σ → σ) :
    After (modify f : ExceptT ε (StateM σ) PUnit) s Q ↔ Q (.ok ⟨⟩) (f s) :=
  Iff.rfl

@[simp] theorem after_adapt (f : ε → δ) (x : ExceptT ε (StateM σ) α) {Q : Except δ α → σ → Prop} :
    After (x.adapt f) s Q ↔ After x s fun r t => Q (r.mapError f) t :=
  Iff.rfl

/-- What follows a computation, given what the computation comes to. -/
def Continues (f : α → ExceptT ε (StateM σ) β) (Q : Except ε β → σ → Prop) :
    Except ε α → σ → Prop
  | .ok a, t => After (f a) t Q
  | .error e, t => Q (.error e) t

@[simp] theorem continues_ok (f : α → ExceptT ε (StateM σ) β) (Q : Except ε β → σ → Prop) (a : α)
    (t : σ) : Continues f Q (.ok a) t ↔ After (f a) t Q :=
  Iff.rfl

@[simp] theorem continues_error (f : α → ExceptT ε (StateM σ) β) (Q : Except ε β → σ → Prop)
    (e : ε) (t : σ) : Continues f Q (.error e) t ↔ Q (.error e) t :=
  Iff.rfl

@[simp] theorem after_bind (x : ExceptT ε (StateM σ) α) (f : α → ExceptT ε (StateM σ) β)
    {Q : Except ε β → σ → Prop} : After (x >>= f) s Q ↔ After x s (Continues f Q) := by
  unfold After
  rw [outcome_bind]
  rcases outcome x s with ⟨_ | _, _⟩ <;> rfl

@[simp] theorem after_map (f : α → β) (x : ExceptT ε (StateM σ) α) {Q : Except ε β → σ → Prop} :
    After (f <$> x) s Q ↔ After x s fun r t => Q (r.map f) t := by
  rw [map_eq_pure_bind, after_bind]
  refine iff_of_eq (congrArg (After x s) (funext fun r => funext fun t => ?_))
  cases r <;> rfl

theorem forM_map (f : α → β) (g : β → ExceptT ε (StateM σ) PUnit) :
    ∀ as : List α, (as.map f).forM g = as.forM fun a => g (f a)
  | [] => rfl
  | _ :: as => bind_congr fun _ => forM_map f g as

theorem foldlM_congr {m : Type → Type} [Monad m] {f g : β → α → m β} :
    ∀ {as : List α}, (∀ a ∈ as, ∀ b, f b a = g b a) → ∀ b, as.foldlM f b = as.foldlM g b
  | [], _, _ => rfl
  | a :: as, h, b => by
    rw [List.foldlM_cons, List.foldlM_cons, h a List.mem_cons_self]
    exact congrArg (g b a >>= ·) (funext fun c =>
      foldlM_congr (fun a' ha' => h a' (List.mem_cons_of_mem a ha')) c)

theorem After.mono {x : ExceptT ε (StateM σ) α} (h : After x s Q) (hQ : ∀ r t, Q r t → R r t) :
    After x s R :=
  hQ _ _ h

theorem After.and {x : ExceptT ε (StateM σ) α} (h : After x s Q) (h' : After x s R) :
    After x s fun r t => Q r t ∧ R r t :=
  ⟨h, h'⟩

theorem After.of_outcome {x : ExceptT ε (StateM σ) α} {r : Except ε α} {t : σ} (h : After x s Q)
    (hx : outcome x s = (r, t)) : Q r t := by
  have := h
  unfold After at this
  rwa [hx] at this

/-- Computations of which the same can be said come to the same. -/
theorem outcome_congr {x y : ExceptT ε (StateM σ) α} {s t : σ} (h : ∀ Q, After x s Q ↔ After y t Q) :
    outcome x s = outcome y t :=
  ((h fun r u => (r, u) = outcome x s).mp rfl).symm

/-! ### Properties of states -/

/-- `J` of the state behind a value, `K` of the state behind a failure. -/
def Split (J K : σ → Prop) : Except ε α → σ → Prop
  | .ok _, t => J t
  | .error _, t => K t

@[simp] theorem split_ok (J K : σ → Prop) (a : α) (t : σ) :
    Split J K (.ok a : Except ε α) t ↔ J t :=
  Iff.rfl

@[simp] theorem split_error (J K : σ → Prop) (e : ε) (t : σ) :
    Split J K (.error e : Except ε α) t ↔ K t :=
  Iff.rfl

theorem split_same {J : σ → Prop} {r : Except ε α} {t : σ} : Split J J r t ↔ J t := by
  cases r <;> rfl

/-- From a state with `J` to one with `J`, or by a failure to one with `K`. -/
def Carries (J K : σ → Prop) (x : ExceptT ε (StateM σ) α) : Prop :=
  ∀ s, J s → After x s (Split J K)

abbrev Keeps (J : σ → Prop) (x : ExceptT ε (StateM σ) α) : Prop :=
  Carries J J x

section
variable {J K : σ → Prop}

theorem Keeps.after {x : ExceptT ε (StateM σ) α} (h : Keeps J x) (hs : J s) :
    After x s fun _ t => J t :=
  (h s hs).mono fun _ _ ht => split_same.mp ht

theorem Keeps.of_after {x : ExceptT ε (StateM σ) α} (h : ∀ s, J s → After x s fun _ t => J t) :
    Keeps J x :=
  fun s hs => (h s hs).mono fun _ _ ht => split_same.mpr ht

theorem carries_pure (a : α) : Carries J K (pure a : ExceptT ε (StateM σ) α) :=
  fun _ h => h

theorem carries_throw (h : ∀ s, J s → K s) (e : ε) :
    Carries J K (throw e : ExceptT ε (StateM σ) α) :=
  fun s hs => h s hs

theorem carries_modify {f : σ → σ} (h : ∀ s, J s → J (f s)) :
    Carries J K (modify f : ExceptT ε (StateM σ) PUnit) :=
  fun s hs => h s hs

theorem Carries.bind {x : ExceptT ε (StateM σ) α} {f : α → ExceptT ε (StateM σ) β}
    (hx : Carries J K x) (hf : ∀ a, Carries J K (f a)) : Carries J K (x >>= f) := by
  intro s hs
  rw [after_bind]
  refine (hx s hs).mono fun r t h => ?_
  cases r with
  | ok a => exact hf a t h
  | error e => exact h

theorem carries_get_bind {f : σ → ExceptT ε (StateM σ) β}
    (hf : ∀ s, J s → After (f s) s (Split J K)) : Carries J K (get >>= f) := by
  intro s hs
  rw [after_bind]
  exact hf s hs

theorem Carries.adapt {x : ExceptT ε (StateM σ) α} (hx : Carries J K x) (f : ε → δ) :
    Carries J K (x.adapt f) := by
  intro s hs
  rw [after_adapt]
  refine (hx s hs).mono fun r t h => ?_
  cases r <;> exact h

theorem Carries.forM {f : α → ExceptT ε (StateM σ) PUnit} :
    ∀ {as : List α}, (∀ a ∈ as, Carries J K (f a)) → Carries J K (as.forM f)
  | [], _ => carries_pure PUnit.unit
  | a :: as, h => by
    show Carries J K (f a >>= fun _ => as.forM f)
    exact (h a List.mem_cons_self).bind fun _ =>
      Carries.forM fun c hc => h c (List.mem_cons_of_mem _ hc)

/-- Computations in turn that all succeed. -/
theorem After.forM {f : α → ExceptT ε (StateM σ) PUnit} :
    ∀ {as : List α}, (∀ a ∈ as, ∀ s, J s → After (f a) s fun r t => r = .ok ⟨⟩ ∧ J t) →
      ∀ s, J s → After (as.forM f) s fun r t => r = .ok ⟨⟩ ∧ J t
  | [], _, _, hs => ⟨rfl, hs⟩
  | a :: as, h, s, hs => by
    show After (f a >>= fun _ => as.forM f) s _
    rw [after_bind]
    refine (h a List.mem_cons_self s hs).mono fun r t ⟨hr, ht⟩ => ?_
    rw [hr, continues_ok]
    exact After.forM (fun b hb => h b (List.mem_cons_of_mem a hb)) t ht

/-! ### Computations that agree -/

/-- From states with `J` both computations come to the same, which has `J`. -/
def Agrees (J : σ → Prop) (x y : ExceptT ε (StateM σ) α) : Prop :=
  ∀ s, J s → outcome x s = outcome y s ∧ After x s fun _ t => J t

theorem Agrees.keeps {x y : ExceptT ε (StateM σ) α} (h : Agrees J x y) : Keeps J x :=
  .of_after fun s hs => (h s hs).2

theorem Keeps.agrees {x : ExceptT ε (StateM σ) α} (h : Keeps J x) : Agrees J x x :=
  fun _ hs => ⟨rfl, h.after hs⟩

theorem agrees_pure (a : α) : Agrees J (pure a : ExceptT ε (StateM σ) α) (pure a) :=
  fun _ h => ⟨rfl, h⟩

theorem agrees_throw (e : ε) : Agrees J (throw e : ExceptT ε (StateM σ) α) (throw e) :=
  fun _ h => ⟨rfl, h⟩

theorem agrees_modify {f : σ → σ} (h : ∀ s, J s → J (f s)) :
    Agrees J (modify f : ExceptT ε (StateM σ) PUnit) (modify f) :=
  fun s hs => ⟨rfl, h s hs⟩

theorem Agrees.bind_of_ok {x y : ExceptT ε (StateM σ) α} {f g : α → ExceptT ε (StateM σ) β}
    {F : α → Prop} (hx : Agrees J x y) (hF : ∀ s, J s → After x s fun r _ => ∀ a, r = .ok a → F a)
    (hf : ∀ a, F a → Agrees J (f a) (g a)) : Agrees J (x >>= f) (y >>= g) := by
  intro s hs
  obtain ⟨he, hk⟩ := hx s hs
  have hok := hF s hs
  rw [outcome_bind, outcome_bind, ← he, after_bind]
  unfold After at hk hok ⊢
  rcases hxs : outcome x s with ⟨r, t⟩
  rw [hxs] at hk hok
  cases r with
  | error e => exact ⟨rfl, hk⟩
  | ok a => exact hf a (hok a rfl) t hk

theorem Agrees.bind {x y : ExceptT ε (StateM σ) α} {f g : α → ExceptT ε (StateM σ) β}
    (hx : Agrees J x y) (hf : ∀ a, Agrees J (f a) (g a)) : Agrees J (x >>= f) (y >>= g) :=
  hx.bind_of_ok (F := fun _ => True) (fun _ _ _ _ => trivial) fun a _ => hf a

/-- What follows a success changes nothing. -/
theorem Agrees.andThen {x y : ExceptT ε (StateM σ) α} {f : α → ExceptT ε (StateM σ) α}
    (h : Agrees J x y)
    (hf : ∀ s, J s → After x s fun r t => ∀ a, r = .ok a → outcome (f a) t = (.ok a, t)) :
    Agrees J (x >>= f) y := by
  intro s hs
  obtain ⟨he, hk⟩ := h s hs
  have hf := hf s hs
  rw [← he, outcome_bind, after_bind]
  unfold After at hk hf ⊢
  rcases hx : outcome x s with ⟨r, t⟩
  rw [hx] at hk hf
  cases r with
  | error e => exact ⟨rfl, hk⟩
  | ok a =>
    refine ⟨hf a rfl, ?_⟩
    show After (f a) t fun _ t => J t
    unfold After
    rw [hf a rfl]
    exact hk

theorem agrees_get_bind {f g : σ → ExceptT ε (StateM σ) β}
    (h : ∀ s, J s → outcome (f s) s = outcome (g s) s ∧ After (f s) s fun _ t => J t) :
    Agrees J (get >>= f) (get >>= g) :=
  h

theorem Agrees.adapt {x y : ExceptT ε (StateM σ) α} (h : Agrees J x y) (f : ε → δ) :
    Agrees J (x.adapt f) (y.adapt f) := by
  intro s hs
  obtain ⟨he, hk⟩ := h s hs
  refine ⟨outcome_congr fun Q => ?_, ?_⟩
  · rw [after_adapt, after_adapt]
    unfold After
    rw [he]
  · rw [after_adapt]
    exact hk

theorem Agrees.mapM {f g : α → ExceptT ε (StateM σ) β} :
    ∀ {as : List α}, (∀ a ∈ as, Agrees J (f a) (g a)) → Agrees J (as.mapM f) (as.mapM g)
  | [], _ => agrees_pure []
  | a :: as, h => by
    rw [List.mapM_cons, List.mapM_cons]
    refine (h a List.mem_cons_self).bind fun b => ?_
    exact (Agrees.mapM fun c hc => h c (List.mem_cons_of_mem _ hc)).bind fun _ => agrees_pure _

theorem Agrees.forM {f g : α → ExceptT ε (StateM σ) PUnit} :
    ∀ {as : List α}, (∀ a ∈ as, Agrees J (f a) (g a)) → Agrees J (as.forM f) (as.forM g)
  | [], _ => agrees_pure PUnit.unit
  | a :: as, h => by
    show Agrees J (f a >>= fun _ => as.forM f) (g a >>= fun _ => as.forM g)
    exact (h a List.mem_cons_self).bind fun _ =>
      Agrees.forM fun c hc => h c (List.mem_cons_of_mem _ hc)

/-! ### Computations that explain their failures -/

/-- From a state with `J` the computation keeps `J`, and what it fails with is explained by the
state behind it. -/
def Explains (J : σ → Prop) (E : ε → σ → Prop) (x : ExceptT ε (StateM σ) α) : Prop :=
  ∀ s, J s → After x s fun r t => J t ∧ ∀ e, r = .error e → E e t

section
variable {E : ε → σ → Prop} {D : δ → σ → Prop}

theorem Explains.keeps {x : ExceptT ε (StateM σ) α} (h : Explains J E x) : Keeps J x :=
  .of_after fun s hs => (h s hs).mono fun _ _ ht => ht.1

theorem explains_pure (a : α) : Explains J E (pure a : ExceptT ε (StateM σ) α) :=
  fun _ hs => ⟨hs, nofun⟩

theorem explains_throw {e : ε} (he : ∀ s, J s → E e s) :
    Explains J E (throw e : ExceptT ε (StateM σ) α) := by
  refine fun s hs => ⟨hs, fun d hd => ?_⟩
  cases hd
  exact he s hs

theorem explains_modify {f : σ → σ} (h : ∀ s, J s → J (f s)) :
    Explains J E (modify f : ExceptT ε (StateM σ) PUnit) :=
  fun s hs => ⟨h s hs, nofun⟩

theorem Explains.bind {x : ExceptT ε (StateM σ) α} {f : α → ExceptT ε (StateM σ) β}
    (hx : Explains J E x) (hf : ∀ a, Explains J E (f a)) : Explains J E (x >>= f) := by
  intro s hs
  rw [after_bind]
  refine (hx s hs).mono fun r t ⟨ht, he⟩ => ?_
  cases r with
  | ok a => exact hf a t ht
  | error e => exact ⟨ht, fun d hd => he d (by cases hd; rfl)⟩

theorem explains_get_bind {f : σ → ExceptT ε (StateM σ) β}
    (h : ∀ s, J s → After (f s) s fun r t => J t ∧ ∀ e, r = .error e → E e t) :
    Explains J E (get >>= f) :=
  h

theorem Explains.adapt {x : ExceptT ε (StateM σ) α} (hx : Explains J E x) {f : ε → δ}
    (hf : ∀ e s, E e s → D (f e) s) : Explains J D (x.adapt f) := by
  intro s hs
  rw [after_adapt]
  refine (hx s hs).mono fun r t ⟨ht, he⟩ => ⟨ht, fun d hd => ?_⟩
  cases r with
  | ok a => cases hd
  | error e =>
    cases hd
    exact hf e t (he e rfl)

theorem Explains.mapM {f : α → ExceptT ε (StateM σ) β} :
    ∀ {as : List α}, (∀ a ∈ as, Explains J E (f a)) → Explains J E (as.mapM f)
  | [], _ => explains_pure []
  | a :: as, h => by
    rw [List.mapM_cons]
    refine (h a List.mem_cons_self).bind fun b => ?_
    exact (Explains.mapM fun c hc => h c (List.mem_cons_of_mem a hc)).bind fun bs => explains_pure _

theorem Explains.forM {f : α → ExceptT ε (StateM σ) PUnit} :
    ∀ {as : List α}, (∀ a ∈ as, Explains J E (f a)) → Explains J E (as.forM f)
  | [], _ => explains_pure PUnit.unit
  | a :: as, h => by
    show Explains J E (f a >>= fun _ => as.forM f)
    exact (h a List.mem_cons_self).bind fun _ =>
      Explains.forM fun c hc => h c (List.mem_cons_of_mem a hc)

end

/-! ### Computations whose failures are of a kind -/

/-- From a state with `J` the computation keeps `J`, and fails with `E` only. -/
def Confines (J : σ → Prop) (E : ε → Prop) (x : ExceptT ε (StateM σ) α) : Prop :=
  ∀ s, J s → After x s fun r t => J t ∧ ∀ e, r = .error e → E e

section
variable {E : ε → Prop} {D : δ → Prop}

/-- Such failures are explained by themselves. -/
theorem confines_iff_explains {x : ExceptT ε (StateM σ) α} :
    Confines J E x ↔ Explains J (fun e _ => E e) x :=
  Iff.rfl

theorem Confines.keeps {x : ExceptT ε (StateM σ) α} (h : Confines J E x) : Keeps J x :=
  (confines_iff_explains.mp h).keeps

theorem confines_pure (a : α) : Confines J E (pure a : ExceptT ε (StateM σ) α) :=
  explains_pure a

theorem confines_throw {e : ε} (he : E e) : Confines J E (throw e : ExceptT ε (StateM σ) α) :=
  explains_throw fun _ _ => he

theorem confines_modify {f : σ → σ} (h : ∀ s, J s → J (f s)) :
    Confines J E (modify f : ExceptT ε (StateM σ) PUnit) :=
  explains_modify h

theorem Confines.bind {x : ExceptT ε (StateM σ) α} {f : α → ExceptT ε (StateM σ) β}
    (hx : Confines J E x) (hf : ∀ a, Confines J E (f a)) : Confines J E (x >>= f) :=
  (confines_iff_explains.mp hx).bind hf

theorem confines_get_bind {f : σ → ExceptT ε (StateM σ) β}
    (h : ∀ s, J s → After (f s) s fun r t => J t ∧ ∀ e, r = .error e → E e) :
    Confines J E (get >>= f) :=
  explains_get_bind h

theorem Confines.adapt {x : ExceptT ε (StateM σ) α} (hx : Confines J E x) {f : ε → δ}
    (hf : ∀ e, E e → D (f e)) : Confines J D (x.adapt f) :=
  (confines_iff_explains.mp hx).adapt fun e _ => hf e

theorem Confines.mapM {f : α → ExceptT ε (StateM σ) β} {as : List α}
    (h : ∀ a ∈ as, Confines J E (f a)) : Confines J E (as.mapM f) :=
  Explains.mapM h

theorem Confines.forM {f : α → ExceptT ε (StateM σ) PUnit} {as : List α}
    (h : ∀ a ∈ as, Confines J E (f a)) : Confines J E (as.forM f) :=
  Explains.forM h

end

/-! ### Computations whose success hinges on a condition -/

/-- From a state with `J` the computation succeeds only if `C` holds, and keeps `J` then;
and it does succeed if `D` holds. -/
def Hinges (J : σ → Prop) (C D : Prop) (x : ExceptT ε (StateM σ) α) : Prop :=
  ∀ s, J s → After x s (Split (fun t => J t ∧ C) fun _ => ¬ D)

theorem hinges_pure (a : α) : Hinges J True True (pure a : ExceptT ε (StateM σ) α) :=
  fun _ hs => ⟨hs, trivial⟩

theorem hinges_modify {f : σ → σ} (h : ∀ s, J s → J (f s)) :
    Hinges J True True (modify f : ExceptT ε (StateM σ) PUnit) :=
  fun s hs => ⟨h s hs, trivial⟩

section
variable {C C' D D' : Prop}

theorem Hinges.mono {x : ExceptT ε (StateM σ) α} (h : Hinges J C D x) (hC : C → C') (hD : D' → D) :
    Hinges J C' D' x := by
  intro s hs
  refine (h s hs).mono fun r t ht => ?_
  cases r with
  | ok a => exact ⟨ht.1, hC ht.2⟩
  | error e => exact fun hd => ht (hD hd)

theorem Hinges.bind {x : ExceptT ε (StateM σ) α} {f : α → ExceptT ε (StateM σ) β}
    (hx : Hinges J C D x) (hf : ∀ a, Hinges J C' D' (f a)) :
    Hinges J (C ∧ C') (D ∧ D') (x >>= f) := by
  intro s hs
  rw [after_bind]
  refine (hx s hs).mono fun r t ht => ?_
  cases r with
  | error e => exact fun hd => ht hd.1
  | ok a => exact (((hf a).mono (fun hC => ⟨ht.2, hC⟩) And.right) t ht.1)

/-- What follows hinges on nothing more. -/
theorem Hinges.andThen {x : ExceptT ε (StateM σ) α} {f : α → ExceptT ε (StateM σ) β}
    (hx : Hinges J C D x) (hf : ∀ a, Hinges J True True (f a)) : Hinges J C D (x >>= f) :=
  (hx.bind hf).mono And.left fun hd => ⟨hd, trivial⟩

end

theorem Hinges.mapM {f : α → ExceptT ε (StateM σ) β} {C D : α → Prop} :
    ∀ {as : List α}, (∀ a ∈ as, Hinges J (C a) (D a) (f a)) →
      Hinges J (∀ a ∈ as, C a) (∀ a ∈ as, D a) (as.mapM f)
  | [], _ => (hinges_pure []).mono (fun _ _ h => absurd h List.not_mem_nil) fun _ => trivial
  | a :: as, h => by
    rw [List.mapM_cons]
    have htail := Hinges.mapM fun c hc => h c (List.mem_cons_of_mem a hc)
    refine ((h a List.mem_cons_self).bind fun b => htail.andThen fun bs => hinges_pure _).mono ?_ ?_
    · exact fun hC => List.forall_mem_cons.mpr hC
    · exact fun hD => List.forall_mem_cons.mp hD

theorem Hinges.forM {f : α → ExceptT ε (StateM σ) PUnit} {C D : α → Prop} :
    ∀ {as : List α}, (∀ a ∈ as, Hinges J (C a) (D a) (f a)) →
      Hinges J (∀ a ∈ as, C a) (∀ a ∈ as, D a) (as.forM f)
  | [], _ => (hinges_pure PUnit.unit).mono (fun _ _ h => absurd h List.not_mem_nil) fun _ => trivial
  | a :: as, h => by
    show Hinges J _ _ (f a >>= fun _ => as.forM f)
    have htail := Hinges.forM fun c hc => h c (List.mem_cons_of_mem a hc)
    refine ((h a List.mem_cons_self).bind fun _ => htail).mono ?_ ?_
    · exact fun hC => List.forall_mem_cons.mpr hC
    · exact fun hD => List.forall_mem_cons.mp hD

end
end
end Inversion
