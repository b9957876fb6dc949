import Mathlib.Data.Fintype.Card
import Mathlib.Data.Set.Finite.Basic
import Mathlib.Logic.Relation

/-!
# Texts that include other texts

A text is a list of items of its own and of the names of other texts, which stand for the items of
those. This file compares two ways of reading such a text. `Expands` puts the items of a named text
where the name stands. `Collects` reads the named texts first, and keeps the items of the text itself
for the end.

* `Expands.perm`: both give the same items;
* `Expands.eq_of_inOrder`, `Expands.inOrder_of_eq`: when they give them in the same order;
* `exists_expands_iff`: when reading ends, which for finitely many texts is when no text includes
  itself.
-/

namespace Inclusion

open Relation

variable {μ ν : Type*} (body : ν → List (μ ⊕ ν))

/-- One text includes another. -/
def Names (p q : ν) : Prop := .inr q ∈ body p

/-- A text is included, directly or through others. -/
def Reaches (l : List (μ ⊕ ν)) (q : ν) : Prop := ∃ p, .inr p ∈ l ∧ ReflTransGen (Names body) p q

/-- The items of a text, with those of an included text where its name stands. -/
inductive Expands : List (μ ⊕ ν) → List μ → Prop where
  | nil : Expands [] []
  | item {m : μ} {l : List (μ ⊕ ν)} {ms : List μ} (h : Expands l ms) :
    Expands (.inl m :: l) (m :: ms)
  | nested {p : ν} {l : List (μ ⊕ ν)} {as bs : List μ} (ha : Expands (body p) as)
    (hb : Expands l bs) : Expands (.inr p :: l) (as ++ bs)

/-- The items of the included texts, and those of the text itself, which follow them. -/
inductive Collects : List (μ ⊕ ν) → List μ → List μ → Prop where
  | nil : Collects [] [] []
  | item {m : μ} {l : List (μ ⊕ ν)} {ns os : List μ} (h : Collects l ns os) :
    Collects (.inl m :: l) ns (m :: os)
  | nested {p : ν} {l : List (μ ⊕ ν)} {ns os ns' os' : List μ} (ha : Collects (body p) ns os)
    (hb : Collects l ns' os') : Collects (.inr p :: l) (ns ++ os ++ ns') os'

/-- No included text includes itself, directly or through others. -/
def Acyclic (l : List (μ ⊕ ν)) : Prop := ∀ p, Reaches body l p → ¬ TransGen (Names body) p p

/-- A text without items, also in the texts that it includes. -/
def Silent (p : ν) : Prop := ∀ q, ReflTransGen (Names body) p q → ∀ m, .inl m ∉ body q

/-- No item of the text itself stands before an included text that has items. -/
def ItemsLast (l : List (μ ⊕ ν)) : Prop :=
  l.Pairwise fun a b => ∀ m p, a = .inl m → b = .inr p → Silent body p

/-- The same for every included text. -/
def InOrder (l : List (μ ⊕ ν)) : Prop := ItemsLast body l ∧ ∀ p, Reaches body l p → ItemsLast body (body p)

variable {body} {l : List (μ ⊕ ν)} {ms ns os : List μ} {p q : ν}

theorem Reaches.cons {a : μ ⊕ ν} (h : Reaches body l q) : Reaches body (a :: l) q := by
  obtain ⟨p, hp, hpq⟩ := h
  exact ⟨p, List.mem_cons_of_mem _ hp, hpq⟩

theorem Reaches.nested (h : Reaches body (body p) q) : Reaches body (.inr p :: l) q := by
  obtain ⟨r, hr, hrq⟩ := h
  exact ⟨p, List.mem_cons_self, .head hr hrq⟩

theorem InOrder.tail {a : μ ⊕ ν} (h : InOrder body (a :: l)) : InOrder body l :=
  ⟨(List.pairwise_cons.1 h.1).2, fun p hp => h.2 p hp.cons⟩

theorem InOrder.nested (h : InOrder body (.inr p :: l)) : InOrder body (body p) :=
  ⟨h.2 p ⟨p, List.mem_cons_self, .refl⟩, fun q hq => h.2 q hq.nested⟩

/-! ## The order of the items -/

/-- Both readings give the same items. -/
theorem Expands.perm (h : Expands body l ms) (h' : Collects body l ns os) : ms.Perm (ns ++ os) := by
  induction h generalizing ns os with
  | nil =>
    cases h'
    exact .refl _
  | item h ih =>
    cases h' with
    | item h' => exact ((ih h').cons _).trans List.perm_middle.symm
  | nested ha hb iha ihb =>
    cases h' with
    | nested ha' hb' =>
      rw [List.append_assoc]
      exact (iha ha').append (ihb hb')

theorem Collects.exists_expands (h : Collects body l ns os) : ∃ ms, Expands body l ms := by
  induction h with
  | nil => exact ⟨_, .nil⟩
  | item h ih =>
    obtain ⟨ms, h'⟩ := ih
    exact ⟨_, h'.item⟩
  | nested ha hb iha ihb =>
    obtain ⟨as, ha'⟩ := iha
    obtain ⟨bs, hb'⟩ := ihb
    exact ⟨_, ha'.nested hb'⟩

theorem Expands.unique {ms' : List μ} (h : Expands body l ms) (h' : Expands body l ms') :
    ms = ms' := by
  induction h generalizing ms' with
  | nil =>
    cases h'
    rfl
  | item h ih =>
    cases h' with
    | item h' => rw [ih h']
  | nested ha hb iha ihb =>
    cases h' with
    | nested ha' hb' => rw [iha ha', ihb hb']

theorem silent_iff :
    Silent body p ↔ (∀ m, .inl m ∉ body p) ∧ ∀ q, .inr q ∈ body p → Silent body q := by
  constructor
  · intro h
    exact ⟨h p .refl, fun q hq r hr => h r (.head hq hr)⟩
  · rintro ⟨hitems, hnested⟩ q hq
    rcases hq.cases_head with rfl | ⟨r, hr, hrq⟩
    · exact hitems
    · exact hnested r hr q hrq

/-- A text without items of its own and with silent texts has no items. -/
theorem Expands.eq_nil_iff (h : Expands body l ms) :
    ms = [] ↔ (∀ m, .inl m ∉ l) ∧ ∀ p, .inr p ∈ l → Silent body p := by
  induction h with
  | nil => simp
  | @item m l ms h ih =>
    constructor
    · intro hnil
      cases hnil
    · rintro ⟨hitems, -⟩
      exact (hitems m List.mem_cons_self).elim
  | @nested p l as bs ha hb iha ihb =>
    rw [List.append_eq_nil_iff, iha, ihb, ← silent_iff]
    constructor
    · rintro ⟨hp, hitems, hnested⟩
      exact ⟨by simpa using hitems, by simpa using ⟨hp, hnested⟩⟩
    · rintro ⟨hitems, hnested⟩
      exact ⟨hnested p List.mem_cons_self, fun m hm => hitems m (List.mem_cons_of_mem _ hm),
        fun q hq => hnested q (List.mem_cons_of_mem _ hq)⟩

/-- Where all included texts are silent, only the items of the text itself are left. -/
theorem Collects.eq_nil_iff (h : Collects body l ns os) :
    ns = [] ↔ ∀ p, .inr p ∈ l → Silent body p := by
  induction h with
  | nil => simp
  | item h ih => simpa using ih
  | @nested p l ns os ns' os' ha hb iha ihb =>
    obtain ⟨ms, hms⟩ := ha.exists_expands
    have hbody : ns ++ os = [] ↔ Silent body p := by
      have hperm := hms.perm ha
      rw [silent_iff, ← hms.eq_nil_iff]
      constructor
      · intro hnil
        exact (hnil ▸ hperm).eq_nil
      · intro hnil
        exact (hnil ▸ hperm).symm.eq_nil
    rw [List.append_eq_nil_iff, hbody, ihb]
    simp

/-- Where no item stands before an included text with items, both readings give the items in the
same order. -/
theorem Expands.eq_of_inOrder (h : Expands body l ms) (h' : Collects body l ns os)
    (horder : InOrder body l) : ms = ns ++ os := by
  induction h generalizing ns os with
  | nil =>
    cases h'
    rfl
  | @item m l ms h ih =>
    cases h' with
    | item h' =>
      have hnil := h'.eq_nil_iff.2 fun p hp =>
        (List.pairwise_cons.1 horder.1).1 _ hp m p rfl rfl
      rw [ih h' horder.tail, hnil]
      rfl
  | nested ha hb iha ihb =>
    cases h' with
    | nested ha' hb' =>
      rw [iha ha' horder.nested, ihb hb' horder.tail]
      simp only [List.append_assoc]

/-- Where no item occurs twice, that is the only way in which both orders can be the same. -/
theorem Expands.inOrder_of_eq (h : Expands body l ms) (h' : Collects body l ns os)
    (heq : ms = ns ++ os) (hnodup : ms.Nodup) : InOrder body l := by
  induction h generalizing ns os with
  | nil => exact ⟨List.Pairwise.nil, fun p hp => by obtain ⟨q, hq, -⟩ := hp; cases hq⟩
  | @item m l ms h ih =>
    cases h' with
    | @item _ _ _ os h' =>
      -- a nested item would come first, and the item itself a second time behind it
      have hnil : ns = [] := by
        cases ns with
        | nil => rfl
        | cons n ns =>
          rw [List.cons_append, List.cons.injEq] at heq
          have hmem : m ∉ ms := (List.nodup_cons.1 hnodup).1
          exact (hmem (by simp [heq.2])).elim
      rw [hnil, List.nil_append, List.cons.injEq] at heq
      have hrest := ih h' (by rw [hnil, List.nil_append, heq.2]) (List.nodup_cons.1 hnodup).2
      refine ⟨List.pairwise_cons.2 ⟨?_, hrest.1⟩, ?_⟩
      · rintro b hb _ p - rfl
        exact h'.eq_nil_iff.1 hnil p hb
      · rintro p ⟨q, hq, hqp⟩
        exact hrest.2 p ⟨q, by simpa using hq, hqp⟩
  | @nested p l as bs ha hb iha ihb =>
    cases h' with
    | @nested _ _ ns os ns' os' ha' hb' =>
      rw [List.append_assoc] at heq
      obtain ⟨has, hbs⟩ := List.append_inj heq (ha.perm ha').length_eq
      have hbody := iha ha' has (List.nodup_append.1 hnodup).1
      have hrest := ihb hb' hbs (List.nodup_append.1 hnodup).2.1
      refine ⟨List.pairwise_cons.2 ⟨?_, hrest.1⟩, ?_⟩
      · rintro b - m q hm
        cases hm
      · rintro r ⟨q, hq, hqr⟩
        rcases List.mem_cons.1 hq with hqp | hq
        · cases hqp
          rcases hqr.cases_head with rfl | ⟨c, hc, hcr⟩
          · exact hbody.1
          · exact hbody.2 r ⟨c, hc, hcr⟩
        · exact hrest.2 r ⟨q, hq, hqr⟩

/-! ## Changing the items -/

/-- The items that a function keeps, and all included texts. -/
def keepItems {κ : Type*} (f : μ → Option κ) (l : List (μ ⊕ ν)) : List (κ ⊕ ν) :=
  l.filterMap (Sum.elim (fun m => (f m).map .inl) fun p => some (.inr p))

theorem inr_mem_keepItems {κ : Type*} {f : μ → Option κ} : .inr p ∈ keepItems f l ↔ .inr p ∈ l := by
  simp [keepItems]

/-- What is kept of the items of a text are the items of the text where only those are kept. -/
theorem Expands.keepItems {κ : Type*} (f : μ → Option κ) (h : Expands body l ms) :
    Expands (fun p => keepItems f (body p)) (keepItems f l) (ms.filterMap f) := by
  induction h with
  | nil => exact .nil
  | @item m l ms h ih =>
    cases hm : f m with
    | none => simpa [Inclusion.keepItems, hm] using ih
    | some k => simpa [Inclusion.keepItems, hm] using ih.item (m := k)
  | nested ha hb iha ihb =>
    rw [List.filterMap_append]
    exact iha.nested ihb

/-! ## When reading ends -/

theorem Expands.acc (h : Expands body l ms) :
    ∀ p, .inr p ∈ l → Acc (fun q p => Names body p q) p := by
  induction h with
  | nil => simp
  | item h ih => simpa using ih
  | nested ha hb iha ihb =>
    intro p hp
    rcases List.mem_cons.1 hp with hp | hp
    · cases hp
      exact .intro _ fun q hq => iha q hq
    · exact ihb p hp

theorem exists_expands_of_forall (h : ∀ p, .inr p ∈ l → ∃ ms, Expands body (body p) ms) :
    ∃ ms, Expands body l ms := by
  induction l with
  | nil => exact ⟨_, .nil⟩
  | cons a l ih =>
    obtain ⟨bs, hb⟩ := ih fun p hp => h p (List.mem_cons_of_mem _ hp)
    cases a with
    | inl m => exact ⟨_, hb.item⟩
    | inr p =>
      obtain ⟨as, ha⟩ := h p List.mem_cons_self
      exact ⟨_, ha.nested hb⟩

/-- Reading ends exactly if there is no infinite chain of inclusions. -/
theorem exists_expands_iff_acc :
    (∃ ms, Expands body l ms) ↔ ∀ p, .inr p ∈ l → Acc (fun q p => Names body p q) p := by
  refine ⟨fun ⟨ms, h⟩ => h.acc, fun h => exists_expands_of_forall fun p hp => ?_⟩
  have hacc := h p hp
  clear hp
  induction hacc with
  | intro p _ ih => exact exists_expands_of_forall fun q hq => ih q hq

/-- From a text with no infinite chain of inclusions no text is reached that includes itself. -/
theorem not_transGen_of_acc (h : Acc (fun q p => Names body p q) p)
    (hpq : ReflTransGen (Names body) p q) : ¬ TransGen (Names body) q q := by
  induction h generalizing q with
  | intro p _ ih =>
    rcases hpq.cases_head with rfl | ⟨c, hc, hcq⟩
    · intro hcycle
      obtain ⟨c, hc, hcp⟩ := TransGen.head'_iff.1 hcycle
      exact ih c hc .refl (.tail' hcp hc)
    · exact ih c hc hcq

/-- With finitely many texts that are not empty, every infinite chain of inclusions is a cycle. -/
theorem acc_of_acyclic (hfinite : {p | body p ≠ []}.Finite) (h : Acyclic body l) :
    ∀ p, Reaches body l p → Acc (fun q p => Names body p q) p := by
  let Node := {p // body p ≠ [] ∧ Reaches body l p}
  have hnodes : Finite Node := (hfinite.subset fun p hp => hp.1).to_subtype
  let below : Node → Node → Prop := fun q p => TransGen (Names body) p.1 q.1
  have htrans : IsTrans Node below := ⟨fun _ _ _ hab hbc => hbc.trans hab⟩
  have hirrefl : Std.Irrefl below := ⟨fun p hp => h p.1 p.2.2 hp⟩
  have hwf := Finite.wellFounded_of_trans_of_irrefl below
  have hnode (p : Node) : Acc (fun q p => Names body p q) p.1 := by
    induction p using hwf.induction with
    | _ p ih =>
      refine .intro _ fun q hq => ?_
      by_cases hempty : body q = []
      · -- an empty text includes nothing
        refine .intro _ fun r hr => ?_
        rw [Names, hempty] at hr
        cases hr
      · obtain ⟨r, hr, hrp⟩ := p.2.2
        exact ih ⟨q, hempty, r, hr, hrp.tail hq⟩ (.single hq)
  intro p hp
  by_cases hempty : body p = []
  · refine .intro _ fun r hr => ?_
    rw [Names, hempty] at hr
    cases hr
  · exact hnode ⟨p, hempty, hp⟩

/-- With finitely many texts that are not empty, reading ends exactly if no included text includes
itself. -/
theorem exists_expands_iff (hfinite : {p | body p ≠ []}.Finite) :
    (∃ ms, Expands body l ms) ↔ Acyclic body l := by
  rw [exists_expands_iff_acc]
  constructor
  · rintro h p ⟨q, hq, hqp⟩
    exact not_transGen_of_acc (h q hq) hqp
  · intro h p hp
    exact acc_of_acyclic hfinite h p ⟨p, hp, .refl⟩

end Inclusion
