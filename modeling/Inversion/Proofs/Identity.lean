/-
# Identities

The identity of a bean is a text, its type with its name behind a colon or with its site behind an
at sign, and names are any texts. As long as no type contains an at sign or begins with another one
and a colon, two identities are one text only if the types have one name, and the beans one name or,
both without a name, one site (`NamesApart.id_eq_iff`).

A refresh freezes the registered beans in their order, up to the first whose identity is taken. So
it is broken off exactly by the first clash of two registrations, and what it has frozen by then are
the beans in front of the second of the two (`refresh_detects`). Two types that have one name are
one type to it (`refresh_confuses_namesakes`).
-/
import Inversion.Proofs.Phases
import Inversion.Proofs.Lookup.Representation

namespace Inversion

/-! ### Identities as texts -/

/-- A site is told by its text: the last colon stands before the column, and the last one in front
of that before the line. -/
theorem Site.text_inj {s t : Site} (h : s.text = t.text) : s = t := by
  have hcut (file : List Char) (n : Nat) :
      Text.splitLast ':' (file ++ ':' :: (toString n).toList) = some (file, (toString n).toList) :=
    Text.splitLast_append
      (fun hin => absurd (Text.isDigit_of_mem_natText (c := ':') hin) (by decide)) file
  have htext (site : Site) : site.text.toList =
      (site.file.toList ++ ':' :: (toString site.line).toList) ++
        ':' :: (toString site.column).toList := by
    simp [Site.text, String.toList_append]
  have hcolumns := congrArg (Text.splitLast ':' ·.toList) h
  simp only [htext, hcut, Option.some.injEq, Prod.mk.injEq] at hcolumns
  have hlines := congrArg (Text.splitLast ':') hcolumns.1
  simp only [hcut, Option.some.injEq, Prod.mk.injEq] at hlines
  have hnumber {m n : Nat} (h : (toString m).toList = (toString n).toList) : m = n :=
    Text.natText_inj (String.toList_inj.mp h)
  have hfile : s.file = t.file := String.toList_inj.mp hlines.1
  have hline : s.line = t.line := hnumber hlines.2
  have hcolumn : s.column = t.column := hnumber hcolumns.2
  exact Site.ext hfile hline hcolumn

namespace Bean

/-- What stands behind the type in an identity. -/
def mark (b : Bean) : Char :=
  if b.name.isSome then ':' else '@'

/-- What stands behind the mark. -/
def tag (b : Bean) : String :=
  b.name.getD b.site.text

theorem toList_id (b : Bean) : b.id.toList = b.type.name.toList ++ b.mark :: b.tag.toList := by
  unfold id mark tag
  cases b.name with
  | some name => simp
  | none => simp

/-- The two beans are registered under one name or, both without a name, at one site. -/
def Alike (a b : Bean) : Prop :=
  a.name.isSome ∧ a.name = b.name ∨ a.name = none ∧ b.name = none ∧ a.site = b.site

instance (a b : Bean) : Decidable (a.Alike b) :=
  inferInstanceAs (Decidable (_ ∨ _))

/-- The two beans are registered alike under types of one name, whether these are one type or
two. -/
def Clashes (a b : Bean) : Prop :=
  a.type.name = b.type.name ∧ a.Alike b

instance (a b : Bean) : Decidable (a.Clashes b) :=
  inferInstanceAs (Decidable (_ ∧ _))

end Bean

/-- No type has an at sign in its name, and none begins with another one and a colon, whatever comes
behind the colon. -/
structure NamesApart (beans : List Bean) : Prop where
  unmarked : ∀ b ∈ beans, '@' ∉ b.type.name.toList
  apart : ∀ a ∈ beans, ∀ b ∈ beans, ¬a.type.name.toList ++ [':'] <+: b.type.name.toList

instance (beans : List Bean) : Decidable (NamesApart beans) :=
  decidable_of_iff ((∀ b ∈ beans, '@' ∉ b.type.name.toList) ∧
      ∀ a ∈ beans, ∀ b ∈ beans, ¬a.type.name.toList ++ [':'] <+: b.type.name.toList)
    ⟨fun h => ⟨h.1, h.2⟩, fun h => ⟨h.unmarked, h.apart⟩⟩

namespace NamesApart

variable {beans : List Bean} {a b : Bean}

theorem not_begins (h : NamesApart beans) (ha : a ∈ beans) (hb : b ∈ beans) :
    ¬a.type.name.toList ++ [a.mark] <+: b.type.name.toList := by
  unfold Bean.mark
  by_cases hname : a.name.isSome
  · rw [if_pos hname]
    exact h.apart a ha b hb
  · rw [if_neg hname]
    intro hbegins
    have hin : '@' ∈ a.type.name.toList ++ ['@'] :=
      List.mem_append_right _ (List.mem_singleton_self '@')
    exact h.unmarked b hb (hbegins.subset hin)

/-- The identities of two beans are one text exactly if their registrations clash. -/
theorem id_eq_iff (h : NamesApart beans) (ha : a ∈ beans) (hb : b ∈ beans) :
    a.id = b.id ↔ a.Clashes b := by
  constructor
  · intro hid
    have htext : a.type.name.toList ++ a.mark :: a.tag.toList =
        b.type.name.toList ++ b.mark :: b.tag.toList := by
      rw [← a.toList_id, ← b.toList_id, hid]
    obtain ⟨htype, hmark, htag⟩ :=
      Text.append_inj_of_apart (h.not_begins ha hb) (h.not_begins hb ha) htext
    have htag : a.tag = b.tag := String.toList_inj.mp htag
    refine ⟨String.toList_inj.mp htype, ?_⟩
    cases hna : a.name with
    | some x =>
      cases hnb : b.name with
      | some y =>
        have hnames : x = y := by simpa [Bean.tag, hna, hnb] using htag
        exact .inl ⟨by rw [hna]; rfl, by rw [hna, hnb, hnames]⟩
      | none => simp [Bean.mark, hna, hnb] at hmark
    | none =>
      cases hnb : b.name with
      | some y => simp [Bean.mark, hna, hnb] at hmark
      | none =>
        have hsites : a.site.text = b.site.text := by simpa [Bean.tag, hna, hnb] using htag
        exact .inr ⟨hna, hnb, Site.text_inj hsites⟩
  · rintro ⟨htype, ⟨hsome, hname⟩ | ⟨hna, hnb, hsite⟩⟩
    · obtain ⟨x, hna⟩ := Option.isSome_iff_exists.mp hsome
      rw [Bean.id, Bean.id, ← hname, hna, htype]
    · rw [Bean.id, Bean.id, hna, hnb, htype, hsite]

end NamesApart

/-! ### Clashes -/

/-- The beans at the two places clash, the first before the second. -/
def ClashAt (beans : List Bean) (i j : Nat) : Prop :=
  i < j ∧ ∃ a ∈ beans[i]?, ∃ b ∈ beans[j]?, a.Clashes b

instance (beans : List Bean) (i j : Nat) : Decidable (ClashAt beans i j) :=
  inferInstanceAs (Decidable (_ ∧ _))

/-- The clash whose second bean comes first, and among those the one whose first bean does. -/
structure FirstClash (beans : List Bean) (i j : Nat) : Prop where
  clash : ClashAt beans i j
  first : ∀ k l, ClashAt beans k l → j < l ∨ j = l ∧ i ≤ k

section
variable {beans : List Bean} {i j k l : Nat} {a b : Bean}

/-- Beans whose identities differ do not clash. -/
theorem not_clashAt_of_nodup (h : NamesApart beans) (hids : (beans.map Bean.id).Nodup) :
    ¬ClashAt beans k l := by
  rintro ⟨hlt, x, hx, y, hy, hclash⟩
  have hid : x.id = y.id :=
    (h.id_eq_iff (List.mem_of_getElem? hx) (List.mem_of_getElem? hy)).mpr hclash
  have hplace : k = l := place_of_id hids hx hy hid
  omega

/-- A bean whose identity is taken by one of those in front of it, which all differ. -/
theorem firstClash_of_nodup (h : NamesApart beans) (hij : i < j) (ha : beans[i]? = some a)
    (hb : beans[j]? = some b) (hid : a.id = b.id)
    (hids : ((beans.take j).map Bean.id).Nodup) : FirstClash beans i j := by
  have hin : ∀ {n x}, beans[n]? = some x → x ∈ beans := List.mem_of_getElem?
  have hfront : ∀ {n x}, n < j → beans[n]? = some x → (beans.take j)[n]? = some x := by
    intro n x hn hx
    rw [List.getElem?_take_of_lt hn, hx]
  refine ⟨⟨hij, a, ha, b, hb, (h.id_eq_iff (hin ha) (hin hb)).mp hid⟩, ?_⟩
  rintro k l ⟨hkl, x, hx, y, hy, hclash⟩
  have hsame : x.id = y.id := (h.id_eq_iff (hin hx) (hin hy)).mpr hclash
  rcases Nat.lt_trichotomy l j with hl | rfl | hl
  · -- both stand in front, where no identity comes twice
    have hplace : k = l := place_of_id hids (hfront (by omega) hx) (hfront hl hy) hsame
    omega
  · have hy : b = y := Option.some.inj (hb.symm.trans hy)
    have hplace : i = k := place_of_id hids (hfront hij ha) (hfront hkl hx) (by rw [hid, hsame, hy])
    omega
  · exact .inl hl

end

/-! ### Registrations -/

/-- The bean that an operation registers. -/
def Operation.registered? : Operation → Option Bean
  | register bean => some bean
  | _ => none

/-- The beans that a list of operations registers, in their order. -/
def registered (ops : List Operation) : List Bean :=
  ops.filterMap Operation.registered?

namespace Container

/-- Before a refresh, an operation adds the bean that it registers to the others. -/
theorem pending_perform {c : Container} {op : Operation} (h : c.phase = .unrefreshed)
    (hop : op ≠ .refresh) : (c.perform op).2.pending = c.pending ++ op.registered?.toList := by
  have hnone : c.pending = c.pending ++ [] := (List.append_nil c.pending).symm
  cases op with
  | register bean =>
    show (c.register bean).2.pending = c.pending ++ [bean]
    unfold register
    rw [h]
  | configure configuration =>
    refine Eq.trans ?_ hnone
    show (c.configure configuration).2.pending = c.pending
    unfold configure
    rw [h]
  | setProperty key setting =>
    refine Eq.trans ?_ hnone
    show (c.setProperty key setting).2.pending = c.pending
    unfold setProperty
    rw [h]
  | load file content =>
    refine Eq.trans ?_ hnone
    show (c.load file content).2.pending = c.pending
    unfold load
    rw [h]
    rcases c.properties.loadFile file content with ⟨_ | _, _⟩ <;> rfl
  | refresh => exact absurd rfl hop
  | find sel =>
    refine Eq.trans ?_ hnone
    show (c.find sel).2.pending = c.pending
    unfold find
    rw [h]
  | close =>
    refine Eq.trans ?_ hnone
    show c.close.2.pending = c.pending
    unfold close
    rw [h]
  | _ => exact hnone

/-- The beans of an unrefreshed container are those that have been registered. -/
theorem pending_performAll : ∀ (ops : List Operation) {c : Container}, c.phase = .unrefreshed →
    .refresh ∉ ops → (c.performAll ops).2.pending = c.pending ++ registered ops
  | [], c, _, _ => (List.append_nil c.pending).symm
  | op :: ops, c, h, hops => by
    have hop : op ≠ .refresh := fun he => hops (he ▸ List.mem_cons_self)
    have hrest : .refresh ∉ ops := fun hin => hops (List.mem_cons_of_mem op hin)
    have hphase : (c.perform op).2.phase = .unrefreshed := (phase_perform hop).trans h
    have hregistered : op.registered?.toList ++ registered ops = registered (op :: ops) := by
      unfold registered
      cases hbean : op.registered? with
      | none => rw [List.filterMap_cons_none hbean, Option.toList_none, List.nil_append]
      | some bean => rw [List.filterMap_cons_some hbean, Option.toList_some, List.singleton_append]
    calc (c.performAll (op :: ops)).2.pending
        = (c.perform op).2.pending ++ registered ops := pending_performAll ops hphase hrest
      _ = c.pending ++ op.registered?.toList ++ registered ops := by rw [pending_perform h hop]
      _ = c.pending ++ registered (op :: ops) := by rw [List.append_assoc, hregistered]

theorem pending_eq_registered {injector : Injector} {compositions : Compositions}
    {ops : List Operation}
    (h : ((empty injector compositions).performAll ops).2.phase = .unrefreshed) :
    ((empty injector compositions).performAll ops).2.pending = registered ops := by
  have hops : .refresh ∉ ops :=
    (phase_performAll ops (show (empty injector compositions).phase = .unrefreshed from rfl)).1.mp h
  rw [pending_performAll ops rfl hops]
  exact List.nil_append _

/-- The beans are frozen up to the first clash. -/
theorem freeze_clash {c : Container} (h : NamesApart c.pending) :
    (c.freeze.1 = none ∧ c.freeze.2.beans = c.pending ∧ ∀ i j, ¬ClashAt c.pending i j) ∨
      ∃ i j a b, FirstClash c.pending i j ∧ c.pending[i]? = some a ∧ c.pending[j]? = some b ∧
        c.freeze.1 = some (.duplicate a.description b.description) ∧
        c.freeze.2.beans = c.pending.take j := by
  rcases c.freeze_cases with
    ⟨hdistinct, hbeans, hids⟩ | ⟨front, b, rest, a, hpending, ha, hid, hclash, hbeans, hids⟩
  · exact .inl ⟨hdistinct, hbeans, fun i j => not_clashAt_of_nodup h hids⟩
  · right
    have htake : c.pending.take front.length = front := by rw [hpending, List.take_left]
    obtain ⟨i, hi, hai⟩ := List.mem_iff_getElem.mp ha
    have hfirst : c.pending[i]? = some a := by
      rw [hpending, List.getElem?_append_left hi, List.getElem?_eq_getElem hi, hai]
    have hsecond : c.pending[front.length]? = some b := by
      rw [hpending, List.getElem?_append_right (Nat.le_refl _), Nat.sub_self,
        List.getElem?_cons_zero]
    rw [← htake] at hids hbeans
    exact ⟨i, front.length, a, b, firstClash_of_nodup h hi hfirst hsecond hid hids, hfirst, hsecond,
      hclash, hbeans⟩

/-- A refresh without a clash, whatever it comes to, leaves all beans in their places. -/
theorem beans_of_distinct (injector : Injector) (compositions : Compositions)
    (ops : List Operation) :
    let c := ((empty injector compositions).performAll ops).2
    let d := c.refresh.2
    c.phase = .unrefreshed → c.freeze.1 = none →
      d.beans = c.freeze.2.beans ∧ d.registry.marks.length = d.beans.length := by
  intro c d hn hdistinct
  have hperform : ((empty injector compositions).performAll (ops ++ [.refresh])).2 = d :=
    performAll_append ops [.refresh] _
  have hbegun : d.phase ≠ .unrefreshed := by
    rcases phase_refresh hn with ⟨-, hphase⟩ | ⟨-, hphase⟩
    · exact fun h => nomatch hphase.symm.trans h
    · exact fun h => nomatch hphase.symm.trans h
  have hthrifty : Has Plan.Thrifty d :=
    hperform ▸ performAll_lasts lasts_thrifty injector compositions (ops ++ [.refresh])
  refine ⟨?_, (hthrifty.since hbegun).length⟩
  show c.refresh.2.beans = _
  rw [refresh_of_distinct hn hdistinct, beans_complete]

/-- Let no type contain an at sign or begin with another one and a colon, whatever the names are.
A refresh finds duplicates exactly if two of the registrations clash. Then it shows the two
of the first clash, and the registry holds the beans in front of the second, of which each has an
identity of its own. Without a clash it holds all beans in the order of their registration, whatever
the refresh comes to. -/
theorem refresh_detects (injector : Injector) (compositions : Compositions)
    (ops : List Operation) :
    let c := ((empty injector compositions).performAll ops).2
    let d := c.refresh.2
    let beans := registered ops
    c.phase = .unrefreshed → NamesApart beans →
    ((∃ first second, c.refresh.1 = .error (.duplicate first second)) ↔
      ∃ i j, ClashAt beans i j) ∧
    ((∃ i j, ClashAt beans i j) → ∃ i j a b panic, FirstClash beans i j ∧
      beans[i]? = some a ∧ beans[j]? = some b ∧ c.refresh.1 = .error panic ∧
      panic.message = "found duplicate beans [" ++ a.description ++ "] [" ++ b.description ++ "]" ∧
      d.beans = beans.take j ∧ d.registry = .ofBeans (beans.take j) ∧
      (d.beans.map Bean.id).Nodup) ∧
    ((∀ i j, ¬ClashAt beans i j) →
      d.beans = beans ∧ d.registry.marks.length = beans.length ∧
      (d.beans.map Bean.id).Nodup) := by
  intro c d beans hn hapart
  have hpending : c.pending = beans := pending_eq_registered hn
  have hfreeze := freeze_clash (hpending ▸ hapart)
  have hids := c.nodup_freeze
  rw [hpending] at hfreeze
  rcases hfreeze with ⟨hdistinct, hall, hnone⟩ | ⟨i, j, a, b, hfirst, ha, hb, hclash, htake⟩
  · obtain ⟨hbeans, hlength⟩ := beans_of_distinct injector compositions ops hn hdistinct
    rw [hall] at hids hbeans
    refine ⟨iff_of_false ?_ ?_, ?_, fun _ => ⟨hbeans, hlength.trans (by rw [hbeans]), by rwa [hbeans]⟩⟩
    · rintro ⟨x, y, hpanic⟩
      rw [refresh_of_distinct hn hdistinct] at hpanic
      obtain ⟨cause, hcause, -, -⟩ := resolve_of_complete hpanic
      cases hcause
    · rintro ⟨i, j, hij⟩
      exact hnone i j hij
    · rintro ⟨i, j, hij⟩
      exact absurd hij (hnone i j)
  · have hrefresh : c.refresh = (.error (.duplicate a.description b.description), c.freeze.2) :=
      refresh_of_clash hn hclash
    have hd : d = c.freeze.2 := congrArg Prod.snd hrefresh
    have hbeans : d.beans = beans.take j := by rw [hd, htake]
    have hregistry : d.registry = .ofBeans (beans.take j) := by
      rw [hd, freeze_spec, htake]
      rfl
    rw [htake] at hids
    refine ⟨iff_of_true ⟨_, _, by rw [hrefresh]⟩ ⟨i, j, hfirst.clash⟩, fun _ => ?_, fun hnone => ?_⟩
    · exact ⟨i, j, a, b, _, hfirst, ha, hb, by rw [hrefresh], rfl, hbeans, hregistry, by rwa [hbeans]⟩
    · exact absurd hfirst.clash (hnone i j)

/-- Two types that two blocks of one function declare, each with a bean under one and the same
name. -/
def namesakes : List Bean :=
  let bean (number line : Nat) : Bean :=
    { Bean.plain ⟨"app::main::Job", number⟩ (.main line) (.object (.part line "job" none)) with
      name := some "nightly" }
  [bean 0 3, bean 1 8]

/-- A refresh finds duplicates among beans of which no two have one concrete type. -/
theorem refresh_confuses_namesakes :
    let c := ((empty .standard ⟨[]⟩).performAll (namesakes.map .register)).2
    let beans := registered (namesakes.map .register)
    c.phase = .unrefreshed ∧ NamesApart beans ∧
    ¬((∃ first second, c.refresh.1 = .error (.duplicate first second)) ↔
      ∃ i j : Nat, i < j ∧ ∃ a b : Bean, beans[i]? = some a ∧ beans[j]? = some b ∧
        a.type = b.type ∧ a.Alike b) := by
  intro c beans
  have hpanic : c.refresh.1 = .error (.duplicate
      "app::main::Job:nightly (src/main.rs:3:5)" "app::main::Job:nightly (src/main.rs:8:5)") := by
    decide +kernel
  have htypes : ∀ j < beans.length, ∀ i < j, beans[i]?.map Bean.type ≠ beans[j]?.map Bean.type := by
    decide +kernel
  refine ⟨rfl, by decide +kernel, fun h => ?_⟩
  obtain ⟨i, j, hlt, a, b, ha, hb, htype, -⟩ := h.mp ⟨_, _, hpanic⟩
  refine htypes j (List.getElem?_eq_some_iff.mp hb).1 i hlt ?_
  rw [ha, hb, Option.map_some, Option.map_some, htype]

/-- Beans with names that look like identities themselves. The first two beans that clash are the
last but one and the one three places in front of it. -/
def lookalikes : List Bean :=
  let bean (type : String) (n : Nat) (name : Option String) : Bean :=
    { Bean.plain (.of type) (.main n) .window with name }
  [bean "app::A" 1 (some ""), bean "app::A" 1 none, bean "app::B" 1 none,
    bean "app::A" 2 (some "x:@src/main.rs:1:5"), bean "app::A" 2 (some "@src/main.rs:1:5"),
    bean "app::A" 2 none, bean "app::A" 3 (some "x:@src/main.rs:1:5"), bean "app::A" 3 (some "")]

theorem refresh_detects_of_lookalikes :
    let c := ((empty .standard ⟨[]⟩).performAll (lookalikes.map .register)).2
    (∃ panic, c.refresh.1 = .error panic ∧ panic.message =
      "found duplicate beans [app::A:x:@src/main.rs:1:5 (src/main.rs:2:5)] " ++
        "[app::A:x:@src/main.rs:1:5 (src/main.rs:3:5)]") ∧
    c.refresh.2.beans = lookalikes.take 6 := by
  intro c
  have hregistered : registered (lookalikes.map .register) = lookalikes := rfl
  have hapart : NamesApart lookalikes := by decide +kernel
  have hclash : ClashAt lookalikes 3 6 := by decide +kernel
  obtain ⟨-, hdetects, -⟩ :=
    refresh_detects .standard ⟨[]⟩ (lookalikes.map .register) rfl (hregistered ▸ hapart)
  rw [hregistered] at hdetects
  obtain ⟨i, j, a, b, panic, hfirst, ha, hb, hpanic, hmessage, hbeans, -, -⟩ :=
    hdetects ⟨3, 6, hclash⟩
  obtain ⟨rfl, rfl⟩ : i = 3 ∧ j = 6 := by
    have hbound : j < 7 := by
      rcases hfirst.first 3 6 hclash with h | ⟨h, -⟩ <;> omega
    have honly : ∀ l < 7, ∀ k < l, ClashAt lookalikes k l → k = 3 ∧ l = 6 := by decide +kernel
    exact honly j hbound i hfirst.clash.1 hfirst.clash
  cases ha
  cases hb
  exact ⟨⟨panic, hpanic, hmessage.trans (by decide +kernel)⟩, hbeans⟩

end Container
end Inversion
