import Sylar.Yaml.Node

/-! # Texts that determine their node

A notation in which no node is the beginning of another, and texts for nodes that follow a
table and use the notation for the other nodes. They show that the documented behaviour of a
library can be had together with the texts it is known to write.
-/

namespace Sylar.Yaml

/-! ## A notation -/

/-- Every character is marked, so that the end is known. -/
def spell : List Char → List Char
  | [] => ['.']
  | c :: cs => '+' :: c :: spell cs

mutual
def notate (node : Node) : List Char :=
  match node with
  | .null => ['n']
  | .scalar text => 's' :: spell text.toList
  | .seq items => 'q' :: notateItems items
  | .map entries => 'm' :: notateEntries entries
termination_by structural node

def notateItems (items : List Node) : List Char :=
  match items with
  | [] => ['.']
  | item :: rest => '+' :: (notate item ++ notateItems rest)
termination_by structural items

def notateEntries (entries : List (String × Node)) : List Char :=
  match entries with
  | [] => ['.']
  | (key, node) :: rest => '+' :: (spell key.toList ++ (notate node ++ notateEntries rest))
termination_by structural entries
end

theorem spell_inj {a b r s : List Char} (h : spell a ++ r = spell b ++ s) : a = b ∧ r = s := by
  induction a generalizing b with
  | nil =>
      cases b with
      | nil => exact ⟨rfl, (List.cons.inj h).2⟩
      | cons d b => simp [spell] at h
  | cons c a ih =>
      cases b with
      | nil => simp [spell] at h
      | cons d b =>
          simp only [spell, List.cons_append, List.cons.injEq, true_and] at h
          obtain ⟨hab, hrs⟩ := ih h.2
          exact ⟨by rw [h.1, hab], hrs⟩

mutual
theorem notate_inj (a b : Node) (r s : List Char) (h : notate a ++ r = notate b ++ s) :
    a = b ∧ r = s := by
  cases a with
  | null =>
      cases b <;> simp [notate] at h
      exact ⟨rfl, h⟩
  | scalar text =>
      cases b <;> simp [notate] at h
      obtain ⟨htext, hrest⟩ := spell_inj h
      exact ⟨by rw [String.toList_inj.mp htext], hrest⟩
  | seq items =>
      cases b <;> simp [notate] at h
      obtain ⟨hitems, hrest⟩ := notateItems_inj items _ r s h
      exact ⟨by rw [hitems], hrest⟩
  | map entries =>
      cases b <;> simp [notate] at h
      obtain ⟨hentries, hrest⟩ := notateEntries_inj entries _ r s h
      exact ⟨by rw [hentries], hrest⟩

theorem notateItems_inj (a b : List Node) (r s : List Char)
    (h : notateItems a ++ r = notateItems b ++ s) : a = b ∧ r = s := by
  cases a with
  | nil =>
      cases b <;> simp [notateItems] at h
      exact ⟨rfl, h⟩
  | cons x a =>
      cases b with
      | nil => simp [notateItems] at h
      | cons z b =>
          simp only [notateItems, List.cons_append, List.append_assoc, List.cons.injEq,
            true_and] at h
          obtain ⟨hnode, h⟩ := notate_inj x z _ _ h
          obtain ⟨hitems, hrest⟩ := notateItems_inj a b r s h
          exact ⟨by rw [hnode, hitems], hrest⟩

theorem notateEntries_inj (a b : List (String × Node)) (r s : List Char)
    (h : notateEntries a ++ r = notateEntries b ++ s) : a = b ∧ r = s := by
  cases a with
  | nil =>
      cases b <;> simp [notateEntries] at h
      exact ⟨rfl, h⟩
  | cons x a =>
      cases b with
      | nil => simp [notateEntries] at h
      | cons z b =>
          obtain ⟨k, x⟩ := x
          obtain ⟨l, z⟩ := z
          simp only [notateEntries, List.cons_append, List.append_assoc, List.cons.injEq,
            true_and] at h
          obtain ⟨hkey, h⟩ := spell_inj h
          obtain ⟨hnode, h⟩ := notate_inj x z _ _ h
          obtain ⟨hentries, hrest⟩ := notateEntries_inj a b r s h
          exact ⟨by rw [String.toList_inj.mp hkey, hnode, hentries], hrest⟩
end

/-! ## Tables of texts -/

open Classical in
noncomputable def textIn (table : List (Node × String)) (node : Node) : String :=
  match table.find? fun e => decide (e.1 = node) with
  | some e => e.2
  | none => String.ofList ('#' :: notate node)

theorem textIn_ne_empty {table : List (Node × String)} (h : ∀ e ∈ table, e.2 ≠ "") (node : Node) :
    textIn table node ≠ "" := by
  classical
  unfold textIn
  split
  · rename_i e he
    exact h e (List.mem_of_find?_eq_some he)
  · intro hempty
    have hlist := congrArg String.toList hempty
    rw [String.toList_ofList] at hlist
    cases hlist

/-- Texts differ if those of the table do and none of these is a comment. -/
theorem textIn_inj {table : List (Node × String)} (hnodup : (table.map Prod.snd).Nodup)
    (hcomment : ∀ e ∈ table, e.2.toList.head? ≠ some '#') {a b : Node}
    (h : textIn table a = textIn table b) : a = b := by
  classical
  unfold textIn at h
  split at h
  · rename_i e he
    have hmem := List.mem_of_find?_eq_some he
    have hkey : e.1 = a := by simpa using List.find?_some he
    split at h
    · rename_i d hd
      have hmem' := List.mem_of_find?_eq_some hd
      have hkey' : d.1 = b := by simpa using List.find?_some hd
      have hsame : e = d := List.inj_on_of_nodup_map hnodup hmem hmem' h
      rw [← hkey, ← hkey', hsame]
    · refine absurd ?_ (hcomment e hmem)
      rw [h, String.toList_ofList]
      rfl
  · split at h
    · rename_i d hd
      refine absurd ?_ (hcomment d (List.mem_of_find?_eq_some hd))
      rw [← h, String.toList_ofList]
      rfl
    · have hlist := congrArg String.toList h
      rw [String.toList_ofList, String.toList_ofList] at hlist
      have hnotate : notate a ++ [] = notate b ++ [] := by simpa using hlist
      exact (notate_inj a b [] [] hnotate).1

end Sylar.Yaml
