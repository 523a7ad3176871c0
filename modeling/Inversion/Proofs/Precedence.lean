/-
# Precedence is a topological order

`Needs n after i j` says that item `i` of `n` items runs after another item `j`.
A list of done items is well ordered if it lists each one once, behind all that it
needs. The search has items under visit, each of which the one before needs, a well
ordered list of those that are done, and the rest, which it has not met (`Underway`). A
visit leaves the items under visit alone and adds its own item to those that are done,
with what that needs, directly or through others, and nothing else; or it meets an item
under visit, and from that one on they are a circuit (`visit_spec`).

So the order of all items lists each of them behind what it needs (`order_ok`). There is
one unless some item needs itself, directly or through others (`order_ok_iff`), and
otherwise there is a circuit (`order_circuit`). `arrange_ok` and `arrange_error` say the
same of items that are known by their places.
-/
import Mathlib.Data.List.FinRange
import Mathlib.Data.List.Perm.Subperm
import Mathlib.Data.List.Range
import Inversion.Precedence
import Inversion.Proofs.Before

namespace Inversion
namespace Precedence

open Relation

variable {n : Nat} {after : Nat → Nat → Bool}

/-- Item `i` runs after the other item `j`. -/
def Needs (n : Nat) (after : Nat → Nat → Bool) (i j : Nat) : Prop :=
  i < n ∧ j < n ∧ j ≠ i ∧ after i j = true

theorem mem_needs {i j : Nat} (hi : i < n) : j ∈ needs n after i ↔ Needs n after i j := by
  simp [needs, Needs, hi]

/-- Each item is listed once, behind what it needs. -/
structure WellOrdered (n : Nat) (after : Nat → Nat → Bool) (done : List Nat) : Prop where
  nodup : done.Nodup
  lt : ∀ i ∈ done, i < n
  behind : ∀ l i r, done = l ++ i :: r → ∀ j, Needs n after i j → j ∈ l

theorem wellOrdered_nil : WellOrdered n after [] :=
  ⟨List.nodup_nil, by simp, fun l i r h => by simp at h⟩

/-- An item may be added once all that it needs is done. -/
theorem WellOrdered.snoc {done : List Nat} (h : WellOrdered n after done) {i : Nat} (hi : i < n)
    (hd : i ∉ done) (hn : ∀ j, Needs n after i j → j ∈ done) : WellOrdered n after (done ++ [i]) := by
  refine ⟨?_, ?_, ?_⟩
  · rw [List.nodup_append]
    refine ⟨h.nodup, by simp, fun a ha b hb => ?_⟩
    rw [List.mem_singleton.mp hb]
    exact fun e => hd (e ▸ ha)
  · intro j hj
    rcases List.mem_append.mp hj with hj | hj
    · exact h.lt j hj
    · rwa [List.mem_singleton.mp hj]
  · intro l k r hlr j hj
    rcases List.eq_nil_or_concat r with rfl | ⟨r, z, rfl⟩
    · obtain ⟨rfl, hk⟩ := List.append_inj' hlr rfl
      rw [← (List.cons.inj hk).1] at hj
      exact hn j hj
    · have hlr' : done ++ [i] = (l ++ k :: r) ++ [z] := by simpa using hlr
      obtain ⟨hdone, -⟩ := List.append_inj' hlr' rfl
      exact h.behind l k r hdone j hj

/-- What is needed stands in front. -/
theorem WellOrdered.sublist {done : List Nat} (h : WellOrdered n after done) {i j : Nat}
    (hi : i ∈ done) (hj : Needs n after i j) : [j, i].Sublist done := by
  obtain ⟨l, r, rfl⟩ := List.append_of_mem hi
  have hl : [j].Sublist l := List.singleton_sublist.mpr (h.behind l i r rfl j hj)
  exact hl.append (List.singleton_sublist.mpr List.mem_cons_self)

theorem WellOrdered.lt_of_needs {done : List Nat} (h : WellOrdered n after done) {p q i j : Nat}
    (hp : done[p]? = some i) (hq : done[q]? = some j) (hij : Needs n after i j) : q < p := by
  obtain ⟨hp, rfl⟩ := List.getElem?_eq_some_iff.mp hp
  have hj : j ∈ done.take p := h.behind _ _ (done.drop (p + 1)) (by simp) j hij
  obtain ⟨s, hs, rfl⟩ := List.mem_take_iff_getElem.mp hj
  have hqs : s = q := (List.getElem?_inj (by omega) h.nodup).mp (by rw [hq, List.getElem?_eq_getElem])
  omega

/-! ### The state of the search -/

/-- Items under visit, the outermost first, each of which needs the next. -/
structure Trail (n : Nat) (after : Nat → Nat → Bool) (path : List Nat) : Prop where
  nodup : path.Nodup
  lt : ∀ k ∈ path, k < n
  chain : path.IsChain (Needs n after)

/-- Item `i` may be visited next: the innermost item under visit, if there is one, needs it. -/
def Meets (n : Nat) (after : Nat → Nat → Bool) (path : List Nat) (i : Nat) : Prop :=
  i < n ∧ ∀ k ∈ path.getLast?, Needs n after k i

/-- Different items, two at least, each of which needs the next, and the last the first. -/
structure Circuit (n : Nat) (after : Nat → Nat → Bool) (p : Nat) (ps : List Nat) : Prop where
  others : ps ≠ []
  nodup : (p :: ps).Nodup
  lt : ∀ k ∈ p :: ps, k < n
  chain : (p :: ps ++ [p]).IsChain (Needs n after)

theorem meets_nil {i : Nat} (hi : i < n) : Meets n after [] i :=
  ⟨hi, by simp⟩

theorem meets_of_needs {path : List Nat} {i j : Nat} (h : Needs n after i j) :
    Meets n after (path ++ [i]) j :=
  ⟨h.2.1, by simpa using h⟩

namespace Trail

variable {path : List Nat} {i : Nat}

theorem empty : Trail n after [] :=
  ⟨List.nodup_nil, by simp, .nil⟩

theorem length_le (h : Trail n after path) : path.length ≤ n := by
  have hsub : path ⊆ List.range n := fun k hk => List.mem_range.mpr (h.lt k hk)
  simpa using (List.subperm_of_subset h.nodup hsub).length_le

theorem isChain_snoc (h : Trail n after path) (hi : Meets n after path i) :
    (path ++ [i]).IsChain (Needs n after) :=
  List.isChain_append.mpr ⟨h.chain, .singleton i, by simpa using hi.2⟩

theorem push (h : Trail n after path) (hi : Meets n after path i) (hnew : i ∉ path) :
    Trail n after (path ++ [i]) where
  nodup := List.nodup_append_comm.mp (List.nodup_cons.mpr ⟨hnew, h.nodup⟩)
  lt := List.forall_mem_append.mpr ⟨h.lt, by simpa using hi.1⟩
  chain := h.isChain_snoc hi

/-- An item that is met again closes a circuit, without the visits that led to it. -/
theorem circuit (h : Trail n after path) (hi : Meets n after path i) (hmem : i ∈ path) :
    ∃ p ps, closeCycle path i = p :: ps ++ [p] ∧ Circuit n after p ps := by
  obtain ⟨l, r, rfl, hl⟩ := List.eq_append_cons_of_mem hmem
  have hclose : closeCycle (l ++ i :: r) i = i :: r ++ [i] := by
    unfold closeCycle
    rw [List.dropWhile_append_of_pos fun a ha => decide_eq_true (ne_of_mem_of_not_mem ha hl),
      List.dropWhile_cons_of_neg (by simp)]
  refine ⟨i, r, hclose, ?_, h.nodup.sublist (List.sublist_append_right l _),
    fun k hk => h.lt k (List.mem_append_right l hk), (h.isChain_snoc hi).suffix ⟨l, by simp⟩⟩
  -- an item alone would have to need itself
  rintro rfl
  exact (hi.2 i (by simp)).2.2.1 rfl

end Trail

/-- The items under visit, and those that are done: the rest has not been met. -/
structure Underway (n : Nat) (after : Nat → Nat → Bool) (path done : List Nat) : Prop
    extends Trail n after path where
  ordered : WellOrdered n after done
  undone : ∀ k ∈ path, k ∉ done

namespace Underway

variable {path done : List Nat} {i : Nat}

theorem start : Underway n after [] [] :=
  ⟨.empty, wellOrdered_nil, by simp⟩

theorem push (h : Underway n after path done) (hi : Meets n after path i) (hnew : i ∉ path)
    (hd : i ∉ done) : Underway n after (path ++ [i]) done where
  toTrail := h.toTrail.push hi hnew
  ordered := h.ordered
  undone := List.forall_mem_append.mpr ⟨h.undone, by simpa using hd⟩

/-- The innermost item under visit is done once all that it needs is. -/
theorem pop (h : Underway n after (path ++ [i]) done) (hn : ∀ j, Needs n after i j → j ∈ done) :
    Underway n after path (done ++ [i]) where
  nodup := h.nodup.sublist (List.sublist_append_left path [i])
  lt k hk := h.lt k (List.mem_append_left _ hk)
  chain := h.chain.prefix (List.prefix_append path [i])
  ordered := h.ordered.snoc (h.lt i (by simp)) (h.undone i (by simp)) hn
  undone k hk hk' := by
    rcases List.mem_append.mp hk' with hk' | hk'
    · exact h.undone k (List.mem_append_left _ hk) hk'
    · exact List.disjoint_of_nodup_append h.nodup hk hk'

end Underway

/-! ### Visits -/

/-- What visits of the items `is` in turn come to: these are done, with what they need,
directly or through others, and nothing else; or there is a circuit, whose first item
is at both ends of the answer. -/
def Visited (n : Nat) (after : Nat → Nat → Bool) (path is done : List Nat) :
    Except (List Nat) (List Nat) → Prop
  | .ok result => Underway n after path result ∧ done <+: result ∧ (∀ i ∈ is, i ∈ result) ∧
      ∀ k ∈ result, k ∈ done ∨ ∃ i ∈ is, ReflTransGen (Needs n after) i k
  | .error c => ∃ p ps, c = p :: ps ++ [p] ∧ Circuit n after p ps

theorem foldlM_visited {path : List Nat} {f : List Nat → Nat → Except (List Nat) (List Nat)} :
    ∀ (is done : List Nat),
      (∀ i ∈ is, ∀ done, Underway n after path done → Visited n after path [i] done (f done i)) →
      Underway n after path done → Visited n after path is done (is.foldlM f done)
  | [], done, _, hd => ⟨hd, List.prefix_refl _, by simp, fun k hk => .inl hk⟩
  | i :: is, done, hs, hd => by
    have hi := hs i List.mem_cons_self done hd
    rw [List.foldlM_cons]
    cases hv : f done i with
    | error c => rw [hv] at hi; exact hi
    | ok done' =>
      rw [hv] at hi
      obtain ⟨hd', hpre, hmem, hfrom⟩ := hi
      have ih := foldlM_visited is done' (fun j hj => hs j (List.mem_cons_of_mem _ hj)) hd'
      show Visited n after path (i :: is) done (is.foldlM f done')
      cases hr : is.foldlM f done' with
      | error c => rw [hr] at ih; exact ih
      | ok result =>
        rw [hr] at ih
        obtain ⟨hu, hpre', hall, hfrom'⟩ := ih
        refine ⟨hu, hpre.trans hpre', List.forall_mem_cons.mpr ⟨?_, hall⟩, fun k hk => ?_⟩
        · exact hpre'.subset (hmem i List.mem_cons_self)
        · rcases hfrom' k hk with hk | ⟨j, hj, hjk⟩
          · refine (hfrom k hk).imp_right fun ⟨j, hj, hjk⟩ => ⟨j, ?_, hjk⟩
            rw [List.mem_singleton.mp hj]
            exact List.mem_cons_self
          · exact .inr ⟨j, List.mem_cons_of_mem _ hj, hjk⟩

/-- A visit is made of an item that the innermost one under visit needs, so the items under
visit never outnumber the items. -/
theorem visit_spec : ∀ (depth : Nat) (path : List Nat) (i : Nat) (done : List Nat),
    path.length + depth = n + 1 → Underway n after path done → Meets n after path i →
      Visited n after path [i] done (visit n after depth path i done)
  | 0, path, i, done, hlen, h, _ => by
    -- there are more items under visit than there are items
    have := h.length_le
    omega
  | depth + 1, path, i, done, hlen, h, hi => by
    rw [visit]
    split
    · rename_i hdone
      exact ⟨h, List.prefix_refl _, by simpa using hdone, fun k hk => .inl hk⟩
    · rename_i hdone
      split
      · rename_i hpath
        exact h.circuit hi hpath
      · rename_i hpath
        have hneeds := foldlM_visited (f := fun done j => visit n after depth (path ++ [i]) j done)
          (needs n after i) done (fun j hj done' hd' => by
            refine visit_spec depth (path ++ [i]) j done' ?_ hd'
              (meets_of_needs ((mem_needs hi.1).mp hj))
            rw [List.length_append, List.length_singleton]
            omega) (h.push hi hpath hdone)
        cases hr : (needs n after i).foldlM (fun done j => visit n after depth (path ++ [i]) j done)
            done with
        | error c => rw [hr] at hneeds; exact hneeds
        | ok result =>
          rw [hr] at hneeds
          obtain ⟨hu, hpre, hall, hfrom⟩ := hneeds
          refine ⟨hu.pop fun j hj => hall j ((mem_needs hi.1).mpr hj),
            hpre.trans (List.prefix_append _ _), by simp, fun k hk => ?_⟩
          rcases List.mem_append.mp hk with hk | hk
          · refine (hfrom k hk).imp_right fun ⟨j, hj, hjk⟩ => ⟨i, List.mem_cons_self, ?_⟩
            exact hjk.head ((mem_needs hi.1).mp hj)
          · rw [List.mem_singleton.mp hk]
            exact .inr ⟨i, List.mem_cons_self, .refl⟩

/-! ### The order of all items -/

/-- Items that are visited with no other under visit. -/
theorem roots_spec {is done : List Nat} (his : ∀ i ∈ is, i < n) (hd : Underway n after [] done) :
    Visited n after [] is done (is.foldlM (fun done i => visit n after (n + 1) [] i done) done) :=
  foldlM_visited is done (fun i hi done hd =>
    visit_spec (n + 1) [] i done (by simp) hd (meets_nil (his i hi))) hd

theorem order_spec : Visited n after [] (List.range n) [] (order n after) :=
  roots_spec (fun _ => List.mem_range.mp) .start

/-- The order lists every item, each behind what it needs. -/
theorem order_ok {is : List Nat} (h : order n after = .ok is) :
    is.Perm (List.range n) ∧ WellOrdered n after is := by
  have hs : Visited n after [] (List.range n) [] (order n after) := order_spec
  rw [h] at hs
  obtain ⟨hu, -, hall, -⟩ := hs
  refine ⟨(List.perm_ext_iff_of_nodup hu.ordered.nodup List.nodup_range).mpr fun i => ?_, hu.ordered⟩
  exact ⟨fun hi => List.mem_range.mpr (hu.ordered.lt i hi), hall i⟩

/-- Where there is no order, there is a circuit. -/
theorem order_circuit {c : List Nat} (h : order n after = .error c) :
    ∃ p ps, c = p :: ps ++ [p] ∧ Circuit n after p ps := by
  have hs : Visited n after [] (List.range n) [] (order n after) := order_spec
  rwa [h] at hs

theorem Circuit.transGen {p : Nat} {ps : List Nat} (h : Circuit n after p ps) :
    TransGen (Needs n after) p p := by
  obtain ⟨q, qs, rfl⟩ := List.exists_cons_of_ne_nil h.others
  have hchain := h.chain
  rw [List.cons_append, List.cons_append, List.isChain_cons_cons] at hchain
  have hback : ReflTransGen (Needs n after) q p :=
    List.relationReflTransGen_of_exists_isChain_cons (qs ++ [p]) hchain.2 (by simp)
  exact .head' hchain.1 hback

/-- Without an order some item needs itself. -/
theorem order_error {c : List Nat} (h : order n after = .error c) :
    ∃ k, TransGen (Needs n after) k k := by
  obtain ⟨p, ps, -, hcircuit⟩ := order_circuit h
  exact ⟨p, hcircuit.transGen⟩

/-- There is an order unless some item needs itself. -/
theorem order_ok_iff : (∃ is, order n after = .ok is) ↔ ∀ k, ¬ TransGen (Needs n after) k k := by
  constructor
  · rintro ⟨is, h⟩ k hk
    obtain ⟨hperm, hw⟩ := order_ok h
    have hbehind : ∀ i j, Needs n after i j → [j, i].Sublist is := fun i j hij =>
      hw.sublist (hperm.mem_iff.mpr (List.mem_range.mpr hij.1)) hij
    exact acyclic_of_sublist hw.nodup hbehind k hk
  · intro h
    cases ho : order n after with
    | ok is => exact ⟨is, rfl⟩
    | error c =>
      obtain ⟨k, hk⟩ := order_error ho
      exact absurd hk (h k)

/-- Once the first `m` items have been visited, they are done with what they need, and
nothing else is. -/
theorem order_front {is : List Nat} (h : order n after = .ok is) {m : Nat} (hm : m ≤ n) :
    ∃ front, front <+: is ∧ (∀ k < m, k ∈ front) ∧
      ∀ k ∈ front, ∃ r < m, ReflTransGen (Needs n after) r k := by
  obtain ⟨d, rfl⟩ := Nat.exists_eq_add_of_le hm
  unfold order at h
  rw [List.range_add, List.foldlM_append] at h
  have hfirst : Visited (m + d) after [] (List.range m) []
      ((List.range m).foldlM (fun done i => visit (m + d) after (m + d + 1) [] i done) []) :=
    roots_spec (fun i hi => by have := List.mem_range.mp hi; omega) .start
  generalize (List.range m).foldlM (fun done i => visit (m + d) after (m + d + 1) [] i done) [] = r
    at h hfirst
  cases r with
  | error c => cases h
  | ok front =>
    obtain ⟨hu, -, hall, hfrom⟩ := hfirst
    have hrest : Visited (m + d) after [] ((List.range d).map (m + ·)) front
        (((List.range d).map (m + ·)).foldlM
          (fun done i => visit (m + d) after (m + d + 1) [] i done) front) :=
      roots_spec (by simp) hu
    change List.foldlM _ front _ = _ at h
    rw [h] at hrest
    refine ⟨front, hrest.2.1, fun k hk => hall k (List.mem_range.mpr hk), fun k hk => ?_⟩
    obtain ⟨r, hr, hrk⟩ := (hfrom k hk).resolve_left List.not_mem_nil
    exact ⟨r, List.mem_range.mp hr, hrk⟩

/-! ### Items instead of places -/

section
variable {α : Type} {key : α → String} {after : α → α → Bool} {items : List α}

theorem needs_placewise {i j : Nat} : Needs items.length (placewise after items) i j ↔
    j ≠ i ∧ ∃ a b, items[i]? = some a ∧ items[j]? = some b ∧ after a b = true := by
  constructor
  · rintro ⟨hi, hj, hne, h⟩
    refine ⟨hne, items[i], items[j], by simp [hi], by simp [hj], ?_⟩
    simpa [placewise, hi, hj] using h
  · rintro ⟨hne, a, b, ha, hb, h⟩
    obtain ⟨hi, -⟩ := List.getElem?_eq_some_iff.mp ha
    obtain ⟨hj, -⟩ := List.getElem?_eq_some_iff.mp hb
    exact ⟨hi, hj, hne, by simpa [placewise, ha, hb] using h⟩

theorem filterMap_getElem?_range (items : List α) :
    (List.range items.length).filterMap (items[·]?) = items := by
  have hget : ((fun i => items[i]?) ∘ fun i : Fin items.length => (i : Nat))
      = some ∘ items.get := by
    funext i
    simp
  rw [← List.map_coe_finRange_eq_range, List.filterMap_map, hget, List.filterMap_eq_map,
    List.map_get_finRange]

theorem map_some_filterMap {β γ : Type} {f : β → Option γ} :
    ∀ {l : List β}, (∀ b ∈ l, (f b).isSome) → (l.filterMap f).map some = l.map f
  | [], _ => rfl
  | b :: l, h => by
    obtain ⟨c, hc⟩ := Option.isSome_iff_exists.mp (h b List.mem_cons_self)
    rw [List.filterMap_cons_some hc, List.map_cons, List.map_cons, hc,
      map_some_filterMap fun d hd => h d (List.mem_cons_of_mem b hd)]

theorem places_eq_ok {is : List Nat} :
    places key after items = .ok is ↔ order items.length (placewise after items) = .ok is := by
  unfold places
  cases order items.length (placewise after items) <;> simp

theorem arrange_eq_ok {result : List α} : arrange key after items = .ok result ↔
    ∃ is, places key after items = .ok is ∧ is.filterMap (items[·]?) = result := by
  unfold arrange
  cases places key after items <;> simp [Except.map]

theorem arrange_eq_error {e : SortError} : arrange key after items = .error e ↔
    ∃ c, order items.length (placewise after items) = .error c ∧
      ⟨c.filterMap fun i => items[i]?.map key⟩ = e := by
  unfold arrange places
  cases order items.length (placewise after items) <;> simp [Except.map]

/-- The places of the items that have been arranged, in their order. -/
theorem arrange_places {result : List α} (h : arrange key after items = .ok result) :
    ∃ is, places key after items = .ok is ∧ result.map some = is.map (items[·]?) ∧
      is.Perm (List.range items.length) ∧ WellOrdered items.length (placewise after items) is := by
  obtain ⟨is, his, rfl⟩ := arrange_eq_ok.mp h
  obtain ⟨hperm, hw⟩ := order_ok (places_eq_ok.mp his)
  exact ⟨is, his, map_some_filterMap fun i hi => by simpa using hw.lt i hi, hperm, hw⟩

/-- The items are all there, each behind those that it runs after. -/
theorem arrange_ok {result : List α} (h : arrange key after items = .ok result) :
    result.Perm items ∧ ∀ (i j : Nat) (a b : α), items[i]? = some a → items[j]? = some b → j ≠ i →
      after a b = true → [b, a].Sublist result := by
  obtain ⟨is, his, rfl⟩ := arrange_eq_ok.mp h
  obtain ⟨hperm, hw⟩ := order_ok (places_eq_ok.mp his)
  refine ⟨?_, fun i j a b ha hb hne hab => ?_⟩
  · have := hperm.filterMap (items[·]?)
    rwa [filterMap_getElem?_range] at this
  · have hneeds : Needs items.length (placewise after items) i j :=
      needs_placewise.mpr ⟨hne, a, b, ha, hb, hab⟩
    have hsub := (hw.sublist (hperm.mem_iff.mpr (List.mem_range.mpr hneeds.1)) hneeds).filterMap
      (items[·]?)
    simpa [ha, hb] using hsub

theorem arrange_error {e : SortError} (h : arrange key after items = .error e) :
    ∃ k, TransGen (Needs items.length (placewise after items)) k k := by
  obtain ⟨c, hc, -⟩ := arrange_eq_error.mp h
  exact order_error hc

/-- Other items with the same keys and the same precedence are put into the same order. -/
theorem arrange_map {β : Type} (f : β → α) (bs : List β) :
    arrange key after (bs.map f) =
      (arrange (key ∘ f) (fun a b => after (f a) (f b)) bs).map (List.map f) := by
  have hplacewise : placewise after (bs.map f) = placewise (fun a b => after (f a) (f b)) bs := by
    funext i j
    unfold placewise
    rw [List.getElem?_map, List.getElem?_map]
    cases bs[i]? <;> cases bs[j]? <;> rfl
  unfold arrange places
  rw [List.length_map, hplacewise]
  cases order bs.length (placewise (fun a b => after (f a) (f b)) bs) with
  | error is => simp [Except.map]
  | ok is => simp [Except.map, List.map_filterMap]

end

end Precedence
end Inversion
