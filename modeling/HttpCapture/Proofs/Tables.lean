import HttpCapture.Table
import Mathlib.Data.List.Basic

/-! What a table holds after an entry is put in, taken out or changed. -/

namespace HttpCapture

namespace Table

variable {α β : Type} {keep : β → Bool} {f : α → β} {rank : α → Nat} {key : α} {start : β}
  {change : β → β}

/-- The values at some keys, as far as `keep` holds of them. -/
def tabulate (keep : β → Bool) (f : α → β) (keys : List α) : Table α β :=
  (keys.map fun a => (a, f a)).filter (keep ·.2)

theorem tabulate_cons (a : α) (keys : List α) : tabulate keep f (a :: keys) =
    if keep (f a) then (a, f a) :: tabulate keep f keys else tabulate keep f keys :=
  List.filter_cons

theorem mem_tabulate {keys : List α} {a : α} {b : β} :
    (a, b) ∈ tabulate keep f keys ↔ a ∈ keys ∧ b = f a ∧ keep b = true := by
  simp only [tabulate, List.mem_filter, List.mem_map, Prod.mk.injEq]
  constructor
  · rintro ⟨⟨a, ha, rfl, rfl⟩, hkeep⟩
    exact ⟨ha, rfl, hkeep⟩
  · rintro ⟨ha, rfl, hkeep⟩
    exact ⟨⟨a, ha, rfl, rfl⟩, hkeep⟩

theorem tabulate_congr {g : α → β} {keys : List α} (h : ∀ a ∈ keys, f a = g a) :
    tabulate keep f keys = tabulate keep g keys := by
  unfold tabulate
  rw [List.map_congr_left fun a ha => by rw [h a ha]]

variable [DecidableEq α]

theorem get?_filter (t : Table α β) (p : α → Bool) (key : α) :
    get? (t.filter fun e => p e.1) key = if p key then t.get? key else none := by
  unfold get?
  induction t with
  | nil => simp
  | cons e t ih =>
    obtain ⟨k, v⟩ := e
    by_cases hk : key = k
    · subst hk
      by_cases hp : p key = true
      · simp [hp]
      · simpa [hp] using ih
    · have hne : (key == k) = false := beq_eq_false_iff_ne.mpr hk
      by_cases hp : p k = true
      · simpa [hp, List.lookup_cons, hne] using ih
      · simpa [hp, List.lookup_cons, hne] using ih

theorem get?_erase (t : Table α β) (k key : α) :
    (t.erase k).get? key = if key = k then none else t.get? key := by
  have h := t.get?_filter (fun x => decide (x ≠ k)) key
  by_cases hk : key = k
  · simpa [erase, hk] using h
  · simpa [erase, hk] using h

theorem get?_put (t : Table α β) (k key : α) (v : β) :
    (t.put k v).get? key = if key = k then some v else t.get? key := by
  have h := t.get?_erase k key
  by_cases hk : key = k
  · simp [put, get?, hk]
  · have hne : (key == k) = false := beq_eq_false_iff_ne.mpr hk
    rw [if_neg hk] at h ⊢
    rw [← h]
    simp [put, get?, List.lookup_cons, hne]

theorem exists_get?_of_mem {t : Table α β} {key : α} {v : β} (h : (key, v) ∈ t) :
    ∃ w, t.get? key = some w := by
  unfold get?
  induction t with
  | nil => exact absurd h List.not_mem_nil
  | cons e t ih =>
    obtain ⟨k, u⟩ := e
    by_cases hk : key = k
    · exact ⟨u, by simp [hk]⟩
    · have hne : (key == k) = false := beq_eq_false_iff_ne.mpr hk
      rcases List.mem_cons.mp h with he | h
      · exact absurd (congrArg Prod.fst he) hk
      · simpa [List.lookup_cons, hne] using ih h

theorem amend_of_rank_lt {t : Table α β} (h : ∀ e ∈ t, rank key < rank e.1) :
    t.amend rank key start change = (key, change start) :: t := by
  cases t with
  | nil => rfl
  | cons e t => rw [amend, if_pos (h e List.mem_cons_self)]

/-- A change at one key of a table changes the function that it tabulates there. A key whose value
was not kept had the value `start`. -/
theorem amend_tabulate {keys : List α} (hkeys : keys.Pairwise fun a b => rank a < rank b)
    (hkey : key ∈ keys) (hstart : keep (f key) = false → f key = start)
    (hchange : keep (change (f key)) = true) :
    (tabulate keep f keys).amend rank key start change =
      tabulate keep (fun a => if a = key then change (f a) else f a) keys := by
  induction keys with
  | nil => cases hkey
  | cons a keys ih =>
    obtain ⟨hfirst, hkeys⟩ := List.pairwise_cons.mp hkeys
    rw [tabulate_cons, tabulate_cons]
    by_cases ha : a = key
    · subst ha
      have hrest : tabulate keep (fun b => if b = a then change (f b) else f b) keys =
          tabulate keep f keys := by
        refine tabulate_congr fun b hb => if_neg ?_
        rintro rfl
        exact Nat.lt_irrefl _ (hfirst b hb)
      have hlater : ∀ e ∈ tabulate keep f keys, rank a < rank e.1 := fun e he =>
        hfirst e.1 (mem_tabulate.mp he).1
      rw [if_pos rfl, hchange, hrest]
      cases hkeep : keep (f a) with
      | true => simp [amend]
      | false => simp [amend_of_rank_lt hlater, hstart hkeep]
    · have hkey := (List.mem_cons.mp hkey).resolve_left (Ne.symm ha)
      have hnot : ¬rank key < rank a := Nat.lt_asymm (hfirst key hkey)
      rw [if_neg ha]
      cases hkeep : keep (f a) with
      | true => simp [amend, hnot, Ne.symm ha, ih hkeys hkey]
      | false => simpa using ih hkeys hkey

end Table

end HttpCapture
