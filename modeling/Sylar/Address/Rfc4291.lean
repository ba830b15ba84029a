import Mathlib

/-! # Text forms of IPv6 addresses

The two forms of RFC 4291, section 2.2: eight groups of hexadecimal digits separated by colons,
or the same with one run of zero groups written as `::`. `expand` reads both forms, and whatever
it reads is well formed.
-/

namespace Sylar.Rfc4291

/-! ## Groups -/

def digitValue (c : Char) : Option Nat :=
  if '0' ≤ c ∧ c ≤ '9' then some (c.toNat - '0'.toNat)
  else if 'a' ≤ c ∧ c ≤ 'f' then some (c.toNat - 'a'.toNat + 10)
  else if 'A' ≤ c ∧ c ≤ 'F' then some (c.toNat - 'A'.toNat + 10)
  else none

def readDigits (text : List Char) : Option Nat :=
  text.foldlM (fun value c => (digitValue c).map (16 * value + ·)) 0

def readGroup (text : List Char) : Option Nat :=
  if 1 ≤ text.length ∧ text.length ≤ 4 then readDigits text else none

def IsGroup (text : List Char) : Prop :=
  1 ≤ text.length ∧ text.length ≤ 4 ∧ ∀ c ∈ text, (digitValue c).isSome = true

theorem readDigits_snoc (text : List Char) (c : Char) :
    readDigits (text ++ [c]) =
      (readDigits text).bind fun value => (digitValue c).map (16 * value + ·) := by
  simp [readDigits, List.foldlM_append]

theorem digits_of_readDigits {text : List Char} :
    ∀ {value}, readDigits text = some value → ∀ c ∈ text, (digitValue c).isSome = true := by
  induction text using List.reverseRecOn with
  | nil => simp
  | append_singleton text c ih =>
      intro value h
      rw [readDigits_snoc, Option.bind_eq_some_iff] at h
      obtain ⟨front, hfront, hmap⟩ := h
      obtain ⟨digit, hdigit, -⟩ := Option.map_eq_some_iff.1 hmap
      intro x hx
      rcases List.mem_append.1 hx with hx | hx
      · exact ih hfront x hx
      · rw [List.mem_singleton.1 hx, hdigit]
        rfl

theorem isGroup_of_readGroup {text : List Char} {value : Nat} (h : readGroup text = some value) :
    IsGroup text := by
  unfold readGroup at h
  split at h
  · next hlen => exact ⟨hlen.1, hlen.2, digits_of_readDigits h⟩
  · cases h

theorem digitValue_digitChar : ∀ n < 16, digitValue (Nat.digitChar n) = some n := by decide

theorem readDigits_toDigits (n : Nat) : readDigits (Nat.toDigits 16 n) = some n := by
  induction n using Nat.strongRecOn with
  | ind n ih =>
      by_cases hn : n < 16
      · rw [Nat.toDigits_of_lt_base hn]
        simp [readDigits, digitValue_digitChar n hn]
      · have hdiv : n / 16 < n := Nat.div_lt_self (by omega) (by decide)
        rw [Nat.toDigits_of_base_le (by decide) (by omega), readDigits_snoc, ih _ hdiv,
          digitValue_digitChar _ (Nat.mod_lt _ (by decide))]
        exact congrArg some (Nat.div_add_mod n 16)

theorem readGroup_toDigits {n : Nat} (hn : n < 2 ^ 16) :
    readGroup (Nat.toDigits 16 n) = some n := by
  have hpos : 1 ≤ (Nat.toDigits 16 n).length := Nat.length_toDigits_pos
  have hlen : (Nat.toDigits 16 n).length ≤ 4 :=
    (Nat.length_toDigits_le_iff (by decide) (by decide)).2 hn
  rw [readGroup, if_pos ⟨hpos, hlen⟩, readDigits_toDigits]

/-! ## Runs of groups -/

def readGroups (text : List Char) : Option (List Nat) :=
  if text = [] then some [] else (text.splitOn ':').mapM readGroup

def join (fields : List (List Char)) : List Char := [':'].intercalate fields

theorem join_cons (field : List Char) (fields : List (List Char)) :
    join (field :: fields) = field ++ fields.flatMap (':' :: ·) := by
  induction fields generalizing field with
  | nil => simp [join]
  | cons next fields ih =>
      have hnext : join (field :: next :: fields) = field ++ [':'] ++ join (next :: fields) :=
        List.intercalate_cons_cons
      rw [hnext, ih]
      simp

theorem colon_not_mem {field : List Char} (h : IsGroup field) : ':' ∉ field := by
  intro hmem
  have hdigit := h.2.2 ':' hmem
  revert hdigit
  decide

theorem isGroup_of_mapM {fields : List (List Char)} :
    ∀ {values}, fields.mapM readGroup = some values → ∀ field ∈ fields, IsGroup field := by
  induction fields with
  | nil => simp
  | cons field fields ih =>
      intro values h
      rw [List.mapM_cons] at h
      obtain ⟨value, hvalue, h⟩ := Option.bind_eq_some_iff.1 h
      obtain ⟨rest, hrest, -⟩ := Option.bind_eq_some_iff.1 h
      intro x hx
      rcases List.mem_cons.1 hx with rfl | hx
      · exact isGroup_of_readGroup hvalue
      · exact ih hrest x hx

theorem mapM_readGroup_toDigits {values : List Nat} (h : ∀ n ∈ values, n < 2 ^ 16) :
    (values.map (Nat.toDigits 16)).mapM readGroup = some values := by
  induction values with
  | nil => rfl
  | cons n values ih =>
      rw [List.forall_mem_cons] at h
      rw [List.map_cons, List.mapM_cons, readGroup_toDigits h.1, ih h.2]
      rfl

theorem readGroups_join {fields : List (List Char)} {values : List Nat}
    (h : fields.mapM readGroup = some values) : readGroups (join fields) = some values := by
  have hgroups := isGroup_of_mapM h
  by_cases hnil : fields = []
  · rw [hnil] at h ⊢
    exact h
  · have hsplit : (join fields).splitOn ':' = fields :=
      List.splitOn_intercalate ':' (fun field hf => colon_not_mem (hgroups field hf)) hnil
    have hne : join fields ≠ [] := by
      intro hjoin
      rw [hjoin, List.splitOn_nil] at hsplit
      have hlen := (hgroups [] (by simp [← hsplit])).1
      cases hlen
    rw [readGroups, if_neg hne, hsplit, h]

/-- The parts on both sides of a colon are runs of groups, and not empty. -/
theorem readGroups_colon {front back : List Char} {values : List Nat}
    (h : readGroups (front ++ ':' :: back) = some values) :
    front ≠ [] ∧ back ≠ [] ∧ (readGroups front).isSome = true ∧
      (readGroups back).isSome = true := by
  have hne : front ++ ':' :: back ≠ [] := by simp
  rw [readGroups, if_neg hne, List.splitOn_append_cons_self, List.mapM_append] at h
  obtain ⟨before, hbefore, h⟩ := Option.bind_eq_some_iff.1 h
  obtain ⟨after, hafter, -⟩ := Option.bind_eq_some_iff.1 h
  have hside : ∀ {part : List Char} {values : List Nat},
      (part.splitOn ':').mapM readGroup = some values →
        part ≠ [] ∧ (readGroups part).isSome = true := by
    intro part values hpart
    have hpne : part ≠ [] := by
      rintro rfl
      cases hpart
    exact ⟨hpne, by rw [readGroups, if_neg hpne, hpart]; rfl⟩
  exact ⟨(hside hbefore).1, (hside hafter).1, (hside hbefore).2, (hside hafter).2⟩

/-- No double colon stands inside a run of groups. -/
theorem readGroups_no_double {front back : List Char} :
    readGroups (front ++ ':' :: ':' :: back) = none := by
  by_contra hsome
  obtain ⟨values, hvalues⟩ := Option.ne_none_iff_exists'.1 hsome
  obtain ⟨-, -, -, hback⟩ := readGroups_colon hvalues
  obtain ⟨after, hafter⟩ := Option.isSome_iff_exists.1 hback
  have hempty : readGroups ([] ++ ':' :: back) = some after := hafter
  exact (readGroups_colon hempty).1 rfl

theorem isGroup_of_readGroups {text : List Char} {values : List Nat}
    (h : readGroups text = some values) :
    ∀ field ∈ text.splitOn ':', field = [] ∨ IsGroup field := by
  unfold readGroups at h
  split at h
  · next hnil =>
      rw [hnil]
      simp
  · exact fun field hfield => Or.inr (isGroup_of_mapM h field hfield)

/-! ## The two forms -/

/-- What stands on the two sides of the first `::`. -/
def cut : List Char → Option (List Char × List Char)
  | [] => none
  | c :: rest =>
      if c = ':' ∧ rest.head? = some ':' then some ([], rest.tail)
      else (cut rest).map fun sides => (c :: sides.1, sides.2)

/-- The groups of an address in either form; `::` stands for at least one group. -/
def expand (text : List Char) : Option (List Nat) :=
  match cut text with
  | none => (readGroups text).bind fun groups => if groups.length = 8 then some groups else none
  | some (front, back) =>
      (readGroups front).bind fun before =>
        (readGroups back).bind fun after =>
          if before.length + after.length < 8 then
            some (before ++ List.replicate (8 - (before.length + after.length)) 0 ++ after)
          else none

/-- At most one `::`, and between the colons nothing but groups of one to four digits. -/
structure WellFormed (text : List Char) : Prop where
  one_double : ∀ a b a' b', text = a ++ ':' :: ':' :: b → text = a' ++ ':' :: ':' :: b' → a = a'
  groups : ∀ field ∈ text.splitOn ':', field = [] ∨ IsGroup field

theorem cut_eq_some {text : List Char} : ∀ {front back}, cut text = some (front, back) →
    text = front ++ ':' :: ':' :: back := by
  induction text with
  | nil => simp [cut]
  | cons c rest ih =>
      intro front back h
      unfold cut at h
      split at h
      · next hdouble =>
          obtain ⟨tail, htail⟩ := List.head?_eq_some_iff.1 hdouble.2
          rw [Option.some.injEq, Prod.mk.injEq] at h
          rw [← h.1, ← h.2, hdouble.1, htail]
          rfl
      · obtain ⟨sides, hsides, heq⟩ := Option.map_eq_some_iff.1 h
        rw [Prod.mk.injEq] at heq
        rw [← heq.1, ← heq.2, List.cons_append, ← ih hsides]

theorem cut_isSome (front back : List Char) :
    (cut (front ++ ':' :: ':' :: back)).isSome = true := by
  induction front with
  | nil => rfl
  | cons c front ih =>
      rw [List.cons_append, cut]
      split
      · rfl
      · rw [Option.isSome_map, ih]

/-- Between two runs of groups there is one place for a `::`. -/
theorem double_unique {front back a b : List Char} {before after : List Nat}
    (hfront : readGroups front = some before) (hback : readGroups back = some after)
    (h : front ++ ':' :: ':' :: back = a ++ ':' :: ':' :: b) : front = a := by
  have hfront' : ∀ {u v}, front = u ++ ':' :: v → v ≠ [] := fun hu =>
    (readGroups_colon (hu ▸ hfront)).2.1
  have hback' : ∀ {u v}, back = u ++ ':' :: v → u ≠ [] := fun hu =>
    (readGroups_colon (hu ▸ hback)).1
  rcases List.append_eq_append_iff.1 h with ⟨mid, ha, hmid⟩ | ⟨mid, ha, hmid⟩
  · -- a second `::` to the right of the first
    rcases mid with _ | ⟨x, _ | ⟨y, mid⟩⟩
    · rw [ha, List.append_nil]
    · have hnext : back = ':' :: b := by simpa using (List.cons.inj hmid).2
      exact absurd rfl (hback' (u := []) hnext)
    · have hnext : back = mid ++ ':' :: ':' :: b := by
        simpa using (List.cons.inj (List.cons.inj hmid).2).2
      rw [hnext, readGroups_no_double] at hback
      cases hback
  · rcases mid with _ | ⟨x, _ | ⟨y, mid⟩⟩
    · rw [ha, List.append_nil]
    · obtain rfl : ':' = x := (List.cons.inj hmid).1
      exact absurd rfl (hfront' ha)
    · obtain rfl : ':' = x := (List.cons.inj hmid).1
      obtain rfl : ':' = y := (List.cons.inj (List.cons.inj hmid).2).1
      rw [ha, readGroups_no_double] at hfront
      cases hfront

theorem cut_between {front back : List Char} {before after : List Nat}
    (hfront : readGroups front = some before) (hback : readGroups back = some after) :
    cut (front ++ ':' :: ':' :: back) = some (front, back) := by
  obtain ⟨⟨a, b⟩, hcut⟩ := Option.isSome_iff_exists.1 (cut_isSome front back)
  have heq := cut_eq_some hcut
  have ha := double_unique hfront hback heq
  subst ha
  obtain rfl : back = b := by simpa using heq
  exact hcut

theorem cut_of_readGroups {text : List Char} {values : List Nat}
    (h : readGroups text = some values) : cut text = none := by
  cases hcut : cut text with
  | none => rfl
  | some sides =>
      have htext : text = sides.1 ++ ':' :: ':' :: sides.2 := cut_eq_some hcut
      rw [htext, readGroups_no_double] at h
      cases h

theorem expand_full {text : List Char} {values : List Nat} (h : readGroups text = some values)
    (hlen : values.length = 8) : expand text = some values := by
  simp [expand, cut_of_readGroups h, h, hlen]

theorem expand_compressed {front back : List Char} {before after : List Nat}
    (hfront : readGroups front = some before) (hback : readGroups back = some after)
    (hlen : before.length + after.length < 8) :
    expand (front ++ ':' :: ':' :: back) =
      some (before ++ List.replicate (8 - (before.length + after.length)) 0 ++ after) := by
  simp [expand, cut_between hfront hback, hfront, hback, hlen]

theorem wellFormed_of_expand {text : List Char} {values : List Nat}
    (h : expand text = some values) : WellFormed text := by
  unfold expand at h
  split at h
  · next hcut =>
      obtain ⟨groups, hgroups, -⟩ := Option.bind_eq_some_iff.1 h
      refine ⟨fun a b _ _ htext => ?_, isGroup_of_readGroups hgroups⟩
      rw [htext, readGroups_no_double] at hgroups
      cases hgroups
  · next front back hcut =>
      obtain ⟨before, hbefore, h⟩ := Option.bind_eq_some_iff.1 h
      obtain ⟨after, hafter, -⟩ := Option.bind_eq_some_iff.1 h
      have htext := cut_eq_some hcut
      refine ⟨fun a b a' b' ha ha' => ?_, ?_⟩
      · rw [← double_unique hbefore hafter (htext.symm.trans ha),
          ← double_unique hbefore hafter (htext.symm.trans ha')]
      · rw [htext, List.splitOn_append_cons_self]
        have hempty : (':' :: back).splitOn ':' = [] :: back.splitOn ':' :=
          List.splitOn_append_cons_self [] back
        intro field hfield
        rw [hempty, List.mem_append, List.mem_cons] at hfield
        rcases hfield with hfield | rfl | hfield
        · exact isGroup_of_readGroups hbefore field hfield
        · exact Or.inl rfl
        · exact isGroup_of_readGroups hafter field hfield

theorem WellFormed.colon_or_digit {text : List Char} (h : WellFormed text) :
    ∀ c ∈ text, c = ':' ∨ (digitValue c).isSome = true := by
  have hfields := h.groups
  have htext : join (text.splitOn ':') = text := List.intercalate_splitOn ':'
  rw [← htext]
  generalize text.splitOn ':' = fields at hfields
  intro c hc
  cases fields with
  | nil => cases hc
  | cons field fields =>
      have hdigit : ∀ x ∈ field :: fields, c ∈ x → (digitValue c).isSome = true := by
        intro x hx hcx
        rcases hfields x hx with rfl | hgroup
        · cases hcx
        · exact hgroup.2.2 c hcx
      rw [join_cons, List.mem_append, List.mem_flatMap] at hc
      rcases hc with hc | ⟨x, hx, hc⟩
      · exact Or.inr (hdigit field List.mem_cons_self hc)
      · exact (List.mem_cons.1 hc).imp id (hdigit x (List.mem_cons_of_mem _ hx))

example : expand "1::2:0".toList = some [1, 0, 0, 0, 0, 0, 2, 0] := by decide

example : expand "1::2::3".toList = none := by decide

end Sylar.Rfc4291
