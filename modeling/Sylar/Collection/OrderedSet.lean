import Mathlib

/-! # An ordered set as the list of its elements

The operations of a comparator-ordered set on the list of its elements in set
order. The comparator is any Boolean test; the laws hold for one that compares a
key in a linear order, some of them for an injective one. The key may change between
operations, which is why every law names the key it holds for.
-/

namespace Sylar.Collection

variable {α K : Type*} [LinearOrder K]

/-! ## Operations -/

/-- The element that neither precedes `x` nor follows it. -/
def setFind (lt : α → α → Bool) (x : α) (l : List α) : Option α :=
  l.find? fun y => !lt y x && !lt x y

/-- Insertion before the first element that follows `x`; an equivalent element stays. -/
def setInsert (lt : α → α → Bool) (x : α) : List α → List α
  | [] => [x]
  | y :: ys => if lt x y then x :: y :: ys else if lt y x then y :: setInsert lt x ys else y :: ys

/-- The elements before the first one that does not precede `x`. -/
def setBelow (lt : α → α → Bool) (x : α) (l : List α) : List α := l.takeWhile fun y => lt y x

/-! ## Comparators -/

def Compares (lt : α → α → Bool) (key : α → K) : Prop := ∀ a b, lt a b = true ↔ key a < key b

theorem Compares.not_iff {lt : α → α → Bool} {key : α → K} (h : Compares lt key) (a b : α) :
    lt a b = false ↔ key b ≤ key a := by
  rw [← not_lt, ← h a b, Bool.not_eq_true]

/-- What an ordered container asks of a comparator and an equality test. -/
structure OrdersKeys (lt eq : α → α → Bool) : Prop where
  irrefl : ∀ a, lt a a = false
  trans : ∀ a b c, lt a b = true → lt b c = true → lt a c = true
  one_of : ∀ a b,
    lt a b = true ∧ lt b a = false ∧ eq a b = false ∨
      lt a b = false ∧ lt b a = true ∧ eq a b = false ∨
      lt a b = false ∧ lt b a = false ∧ eq a b = true
  equivalence : Equivalence fun a b => eq a b = true
  congr : ∀ a a' b b', eq a a' = true → eq b b' = true → lt a b = lt a' b'

theorem Compares.ordersKeys {lt eq : α → α → Bool} {key : α → K} (h : Compares lt key)
    (heq : ∀ a b, eq a b = true ↔ key a = key b) : OrdersKeys lt eq where
  irrefl := fun a => (h.not_iff a a).mpr le_rfl
  trans := fun a b c hab hbc => (h a c).mpr (((h a b).mp hab).trans ((h b c).mp hbc))
  one_of := by
    intro a b
    rw [h a b, h b a, h.not_iff a b, h.not_iff b a, heq a b, Bool.eq_false_iff, Ne, heq a b]
    rcases lt_trichotomy (key a) (key b) with hlt | hsame | hgt
    · exact .inl ⟨hlt, hlt.le, hlt.ne⟩
    · exact .inr (.inr ⟨hsame.ge, hsame.le, hsame⟩)
    · exact .inr (.inl ⟨hgt.le, hgt, hgt.ne'⟩)
  equivalence := by
    refine ⟨fun a => (heq a a).mpr rfl, fun hab => ?_, fun hab hbc => ?_⟩
    · exact (heq _ _).mpr ((heq _ _).mp hab).symm
    · exact (heq _ _).mpr (((heq _ _).mp hab).trans ((heq _ _).mp hbc))
  congr := by
    intro a a' b b' ha hb
    rw [Bool.eq_iff_iff, h a b, h a' b', (heq a a').mp ha, (heq b b').mp hb]

/-- Strictly increasing keys: sorted, without equivalent elements. -/
def Ordered (key : α → K) (l : List α) : Prop := l.Pairwise fun a b => key a < key b

theorem Ordered.congr {key key' : α → K} {l : List α} (h : Ordered key l)
    (hkey : ∀ a ∈ l, key' a = key a) : Ordered key' l := by
  refine List.Pairwise.imp_of_mem (fun {a b} ha hb hab => ?_) h
  rwa [hkey a ha, hkey b hb]

theorem Ordered.sublist {key : α → K} {l l' : List α} (h : Ordered key l) (hl : l'.Sublist l) :
    Ordered key l' := List.Pairwise.sublist hl h

theorem Ordered.nodup {key : α → K} {l : List α} (h : Ordered key l) : l.Nodup :=
  List.Pairwise.imp (fun {a b} hab => by rintro rfl; exact lt_irrefl _ hab) h

/-! ## Find -/

theorem Compares.equivalent_iff {lt : α → α → Bool} {key : α → K} (h : Compares lt key)
    (a b : α) : (!lt a b && !lt b a) = true ↔ key a = key b := by
  rw [Bool.and_eq_true, Bool.not_eq_true', Bool.not_eq_true', h.not_iff, h.not_iff]
  exact ⟨fun ⟨hge, hle⟩ => le_antisymm hle hge, fun heq => ⟨heq.ge, heq.le⟩⟩

theorem setFind_isSome {lt : α → α → Bool} {key : α → K} (hlt : Compares lt key) (x : α)
    (l : List α) : (setFind lt x l).isSome = true ↔ ∃ y ∈ l, key y = key x := by
  unfold setFind
  rw [List.find?_isSome]
  exact exists_congr fun y => and_congr_right fun _ => hlt.equivalent_iff y x

theorem setFind_of_mem {lt : α → α → Bool} {key : α → K} (hlt : Compares lt key)
    (hinj : Function.Injective key) {x : α} {l : List α} (hx : x ∈ l) :
    setFind lt x l = some x := by
  obtain ⟨y, hy⟩ := Option.isSome_iff_exists.mp ((setFind_isSome hlt x l).mpr ⟨x, hx, rfl⟩)
  have htest : (!lt y x && !lt x y) = true :=
    List.find?_some (p := fun z => !lt z x && !lt x z) hy
  rw [hy, hinj ((hlt.equivalent_iff y x).mp htest)]

theorem setFind_of_not_mem {lt : α → α → Bool} {key : α → K} (hlt : Compares lt key)
    (hinj : Function.Injective key) {x : α} {l : List α} (hx : x ∉ l) :
    setFind lt x l = none := by
  rw [← Option.not_isSome_iff_eq_none, setFind_isSome hlt x l]
  rintro ⟨y, hy, hkey⟩
  exact hx (hinj hkey ▸ hy)

/-! ## Insert -/

theorem eq_or_mem_of_setInsert {lt : α → α → Bool} {x y : α} {l : List α}
    (hy : y ∈ setInsert lt x l) : y = x ∨ y ∈ l := by
  induction l with
  | nil => exact .inl (List.mem_singleton.mp hy)
  | cons z zs ih =>
      unfold setInsert at hy
      split at hy
      · exact List.mem_cons.mp hy
      · split at hy
        · rcases List.mem_cons.mp hy with rfl | hy
          · exact .inr List.mem_cons_self
          · exact (ih hy).imp_right (List.mem_cons_of_mem z)
        · exact .inr hy

theorem Ordered.setInsert {lt : α → α → Bool} {key : α → K} (hlt : Compares lt key) {x : α}
    {l : List α} (h : Ordered key l) : Ordered key (setInsert lt x l) := by
  induction l with
  | nil => exact List.pairwise_singleton _ _
  | cons z zs ih =>
      obtain ⟨hz, hzs⟩ := List.pairwise_cons.mp h
      unfold Collection.setInsert
      split
      · rename_i hxz
        have hxz' := (hlt x z).mp hxz
        refine List.pairwise_cons.mpr ⟨fun y hy => ?_, h⟩
        rcases List.mem_cons.mp hy with rfl | hy
        · exact hxz'
        · exact hxz'.trans (hz y hy)
      · split
        · rename_i hzx
          refine List.pairwise_cons.mpr ⟨fun y hy => ?_, ih hzs⟩
          rcases eq_or_mem_of_setInsert hy with rfl | hy
          · exact (hlt z y).mp hzx
          · exact hz y hy
        · exact h

theorem key_setInsert {lt : α → α → Bool} {key : α → K} (hlt : Compares lt key) {x : α}
    {l : List α} {k : K} :
    (∃ y ∈ setInsert lt x l, key y = k) ↔ key x = k ∨ ∃ y ∈ l, key y = k := by
  induction l with
  | nil => simp [setInsert]
  | cons z zs ih =>
      unfold setInsert
      split
      · exact List.exists_mem_cons_iff _ x _
      · rename_i hxz
        split
        · rw [List.exists_mem_cons_iff, ih, List.exists_mem_cons_iff]
          exact or_left_comm
        · rename_i hzx
          -- the element that stays has the key of `x`
          have hsame := (hlt.equivalent_iff x z).mp (by simp [hxz, hzx])
          rw [List.exists_mem_cons_iff, hsame, ← or_assoc, or_self]

theorem mem_setInsert {lt : α → α → Bool} {key : α → K} (hlt : Compares lt key)
    (hinj : Function.Injective key) {x y : α} {l : List α} :
    y ∈ setInsert lt x l ↔ y = x ∨ y ∈ l := by
  refine ⟨eq_or_mem_of_setInsert, fun hy => ?_⟩
  have hkey : key x = key y ∨ ∃ z ∈ l, key z = key y :=
    hy.imp (fun heq => congrArg key heq.symm) fun hin => ⟨y, hin, rfl⟩
  obtain ⟨z, hz, hzy⟩ := (key_setInsert hlt).mpr hkey
  exact hinj hzy ▸ hz

/-! ## A sequence of insertions -/

def setOf (lt : α → α → Bool) (xs : List α) : List α :=
  xs.foldl (fun l x => setInsert lt x l) []

theorem setOf_concat (lt : α → α → Bool) (xs : List α) (x : α) :
    setOf lt (xs ++ [x]) = setInsert lt x (setOf lt xs) := by
  rw [setOf, List.foldl_append]
  rfl

theorem key_setOf {lt : α → α → Bool} {key : α → K} (hlt : Compares lt key) (xs : List α)
    (k : K) : (∃ y ∈ setOf lt xs, key y = k) ↔ ∃ x ∈ xs, key x = k := by
  induction xs using List.reverseRecOn with
  | nil => rfl
  | append_singleton xs x ih =>
      rw [setOf_concat, key_setInsert hlt, ih]
      simp only [List.mem_append, List.mem_singleton, or_and_right, exists_or, exists_eq_left]
      exact or_comm

theorem setInsert_of_forall_lt {lt : α → α → Bool} {key : α → K} (hlt : Compares lt key) {x : α}
    {l : List α} (hl : ∀ y ∈ l, key y < key x) : setInsert lt x l = l ++ [x] := by
  induction l with
  | nil => rfl
  | cons y ys ih =>
      have hy := hl y List.mem_cons_self
      rw [setInsert, if_neg (Bool.eq_false_iff.mp ((hlt.not_iff x y).mpr hy.le)),
        if_pos ((hlt y x).mpr hy), ih fun z hz => hl z (List.mem_cons_of_mem y hz)]
      rfl

theorem Ordered.setOf_eq {lt : α → α → Bool} {key : α → K} (hlt : Compares lt key) {l : List α}
    (hl : Ordered key l) : setOf lt l = l := by
  induction l using List.reverseRecOn with
  | nil => rfl
  | append_singleton l x ih =>
      obtain ⟨hl, -, hlast⟩ := List.pairwise_append.mp hl
      rw [setOf_concat, ih hl]
      exact setInsert_of_forall_lt hlt fun y hy => hlast y hy x (List.mem_singleton_self x)

/-! ## Initial segments -/

/-- In an ordered list a test that is inherited downwards holds on an initial segment. -/
theorem Ordered.mem_takeWhile {key : α → K} {l : List α} (h : Ordered key l) {p : α → Bool}
    (hp : ∀ a b, key a < key b → p b = true → p a = true) {x : α} :
    x ∈ l.takeWhile p ↔ x ∈ l ∧ p x = true := by
  induction l with
  | nil => simp
  | cons y ys ih =>
      obtain ⟨hy, hys⟩ := List.pairwise_cons.mp h
      by_cases hpy : p y = true
      · rw [List.takeWhile_cons_of_pos hpy, List.mem_cons, List.mem_cons, ih hys]
        constructor
        · rintro (rfl | ⟨hx, hpx⟩)
          · exact ⟨.inl rfl, hpy⟩
          · exact ⟨.inr hx, hpx⟩
        · rintro ⟨rfl | hx, hpx⟩
          · exact .inl rfl
          · exact .inr ⟨hx, hpx⟩
      · rw [List.takeWhile_cons_of_neg hpy]
        constructor
        · intro hx
          cases hx
        · rintro ⟨hx, hpx⟩
          rcases List.mem_cons.mp hx with rfl | hx
          · exact (hpy hpx).elim
          · exact (hpy (hp y x (hy x hx) hpx)).elim

/-- Such a segment is all that passes the test. -/
theorem Ordered.takeWhile_eq_filter {key : α → K} {l : List α} (h : Ordered key l) {p : α → Bool}
    (hp : ∀ a b, key a < key b → p b = true → p a = true) : l.takeWhile p = l.filter p := by
  induction l with
  | nil => rfl
  | cons y ys ih =>
      obtain ⟨hy, hys⟩ := List.pairwise_cons.mp h
      by_cases hpy : p y = true
      · rw [List.takeWhile_cons_of_pos hpy, List.filter_cons_of_pos hpy, ih hys]
      · have hnone : ys.filter p = [] := by
          apply List.filter_eq_nil_iff.mpr
          intro x hx hpx
          exact hpy (hp y x (hy x hx) hpx)
        rw [List.takeWhile_cons_of_neg hpy, List.filter_cons_of_neg hpy, hnone]

theorem Ordered.mem_dropWhile {key : α → K} {l : List α} (h : Ordered key l) {p : α → Bool}
    (hp : ∀ a b, key a < key b → p b = true → p a = true) {x : α} :
    x ∈ l.dropWhile p ↔ x ∈ l ∧ p x = false := by
  have hsplit : l.takeWhile p ++ l.dropWhile p = l := List.takeWhile_append_dropWhile
  have hnodup := h.nodup
  rw [← hsplit] at hnodup
  have hdisj := (List.nodup_append.mp hnodup).2.2
  constructor
  · intro hx
    have hxl : x ∈ l := hsplit ▸ List.mem_append_right _ hx
    refine ⟨hxl, Bool.eq_false_iff.mpr fun hpx => ?_⟩
    exact hdisj x ((h.mem_takeWhile hp).mpr ⟨hxl, hpx⟩) x hx rfl
  · rintro ⟨hx, hpx⟩
    rw [← hsplit] at hx
    rcases List.mem_append.mp hx with ht | hd
    · have := ((h.mem_takeWhile hp).mp ht).2
      rw [hpx] at this
      cases this
    · exact hd

/-- Two consecutive scans with tests that agree with `p` where they are asked are one scan with
`p`. -/
theorem takeWhile_takeWhile {p p₁ p₂ : α → Bool} {l : List α}
    (h₁ : ∀ x ∈ l, p₁ x = true → p x = true)
    (h₂ : ∀ x ∈ l.dropWhile p₁, p₂ x = p x) :
    l.takeWhile p₁ ++ (l.dropWhile p₁).takeWhile p₂ = l.takeWhile p ∧
      (l.dropWhile p₁).dropWhile p₂ = l.dropWhile p := by
  induction l with
  | nil => exact ⟨rfl, rfl⟩
  | cons y ys ih =>
      by_cases hy : p₁ y = true
      · have hpy := h₁ y List.mem_cons_self hy
        rw [List.dropWhile_cons_of_pos hy] at h₂ ⊢
        rw [List.takeWhile_cons_of_pos hy, List.takeWhile_cons_of_pos hpy,
          List.dropWhile_cons_of_pos hpy, List.cons_append]
        obtain ⟨ht, hd⟩ := ih (fun x hx => h₁ x (List.mem_cons_of_mem y hx)) h₂
        exact ⟨by rw [ht], hd⟩
      · rw [List.dropWhile_cons_of_neg hy] at h₂ ⊢
        rw [List.takeWhile_cons_of_neg hy, List.nil_append]
        exact takeWhile_congr h₂
where
  takeWhile_congr {p q : α → Bool} {l : List α} (h : ∀ x ∈ l, q x = p x) :
      l.takeWhile q = l.takeWhile p ∧ l.dropWhile q = l.dropWhile p := by
    induction l with
    | nil => exact ⟨rfl, rfl⟩
    | cons y ys ih =>
        obtain ⟨ht, hd⟩ := ih fun x hx => h x (List.mem_cons_of_mem y hx)
        simp only [List.takeWhile_cons, List.dropWhile_cons, h y List.mem_cons_self, ht, hd,
          and_self]

end Sylar.Collection
