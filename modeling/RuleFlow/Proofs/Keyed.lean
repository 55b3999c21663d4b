import Mathlib.Data.List.Induction
import RuleFlow.Proofs.Steps
import RuleFlow.Text.Basic

/-!
# Maps filled item by item

A map that is filled item by item (`collect`) holds under each key what came of the last item with the key (`LastBy`).
Nothing comes of the items together as soon as one of them fails.
-/

namespace RuleFlow

variable {α β ε : Type}

/-! ## Look-up -/

/-- Where no key comes twice, exactly the items of a list are looked up in it. -/
theorem lookup_eq_some_iff_mem {items : List (Text × α)} (hkeys : (items.map Prod.fst).Nodup) {k : Text} {a : α} :
    items.lookup k = some a ↔ (k, a) ∈ items := by
  induction items with
  | nil => simp
  | cons item items ih =>
      obtain ⟨k', a'⟩ := item
      obtain ⟨hfirst, hothers⟩ := List.nodup_cons.mp hkeys
      rw [List.mem_cons]
      by_cases hk : k = k'
      · subst hk
        have hnot : (k, a) ∉ items := fun h => hfirst (List.mem_map.mpr ⟨(k, a), h, rfl⟩)
        simp [hnot, eq_comm]
      · have hb : (k == k') = false := beq_eq_false_iff_ne.mpr hk
        simp [List.lookup_cons, hb, ih hothers, hk]

/-! ## Last items -/

/-- The item is in the list, and none behind it has its key. -/
def LastBy (key : α → Text) (items : List α) (x : α) : Prop :=
  ∃ before after, items = before ++ x :: after ∧ ∀ y ∈ after, key y ≠ key x

variable {key : α → Text} {items : List α} {x y : α}

theorem LastBy.mem (h : LastBy key items x) : x ∈ items := by
  obtain ⟨before, after, rfl, -⟩ := h
  simp

theorem not_lastBy_nil (key : α → Text) (x : α) : ¬ LastBy key [] x := by
  intro h
  simpa using h.mem

theorem lastBy_append_singleton : LastBy key (items ++ [y]) x ↔ x = y ∨ LastBy key items x ∧ key y ≠ key x := by
  constructor
  · rintro ⟨before, after, heq, hkey⟩
    rcases List.eq_nil_or_concat after with rfl | ⟨after, w, rfl⟩
    · have hlast := (List.append_inj' heq rfl).2
      exact .inl (by simpa using hlast.symm)
    · have hsplit : items ++ [y] = (before ++ x :: after) ++ [w] := by simpa using heq
      obtain ⟨rfl, hw⟩ := List.append_inj' hsplit rfl
      obtain rfl : y = w := by simpa using hw
      exact .inr ⟨⟨before, after, rfl, fun z hz => hkey z (by simp [hz])⟩, hkey y (by simp)⟩
  · rintro (rfl | ⟨⟨before, after, rfl, hkey⟩, hy⟩)
    · exact ⟨items, [], rfl, by simp⟩
    · refine ⟨before, after ++ [y], by simp, ?_⟩
      intro z hz
      rcases List.mem_append.mp hz with hz | hz
      · exact hkey z hz
      · exact List.mem_singleton.mp hz ▸ hy

/-- Where an item has a key, some item is the last one with it. -/
theorem exists_lastBy (key : α → Text) (h : x ∈ items) : ∃ y, LastBy key items y ∧ key y = key x := by
  induction items using List.reverseRecOn with
  | nil => cases h
  | append_singleton items y ih =>
      by_cases hkey : key y = key x
      · exact ⟨y, lastBy_append_singleton.mpr (.inl rfl), hkey⟩
      · rcases List.mem_append.mp h with h | h
        · obtain ⟨w, hw, hwx⟩ := ih h
          exact ⟨w, lastBy_append_singleton.mpr (.inr ⟨hw, hwx ▸ hkey⟩), hwx⟩
        · exact absurd (congrArg key (List.mem_singleton.mp h).symm) hkey

theorem lastBy_iff_mem (hkeys : (items.map key).Nodup) : LastBy key items x ↔ x ∈ items := by
  refine ⟨LastBy.mem, fun h => ?_⟩
  obtain ⟨before, after, rfl⟩ := List.append_of_mem h
  refine ⟨before, after, rfl, fun y hy heq => ?_⟩
  rw [List.map_append, List.map_cons] at hkeys
  have hx := (List.nodup_cons.mp (List.nodup_append.mp hkeys).2.1).1
  exact hx (heq ▸ List.mem_map_of_mem hy)

/-- Only one item is the last one with its key. -/
theorem LastBy.eq_of_key (hx : LastBy key items x) (hy : LastBy key items y) (hkey : key x = key y) : x = y := by
  induction items using List.reverseRecOn with
  | nil => exact absurd hx (not_lastBy_nil key x)
  | append_singleton items z ih =>
      rcases lastBy_append_singleton.mp hx with rfl | ⟨hx, hzx⟩ <;>
        rcases lastBy_append_singleton.mp hy with rfl | ⟨hy, hzy⟩
      · rfl
      · exact absurd hkey hzy
      · exact absurd hkey.symm hzx
      · exact ih hx hy

/-- An item is no obstacle to others that are last with another key. -/
theorem lastBy_without {before after : List α} (hkey : key x ≠ key y) :
    LastBy key (before ++ x :: after) y ↔ LastBy key (before ++ after) y := by
  induction after using List.reverseRecOn with
  | nil =>
      rw [lastBy_append_singleton, List.append_nil]
      constructor
      · rintro (rfl | ⟨h, -⟩)
        · exact absurd rfl hkey
        · exact h
      · exact fun h => .inr ⟨h, hkey⟩
  | append_singleton after z ih =>
      rw [← List.cons_append, ← List.append_assoc, ← List.append_assoc, lastBy_append_singleton,
        lastBy_append_singleton, ih]

/-! ## Filling a map -/

/-- What comes of the items under their keys, one after the other. A later one replaces an earlier one with its key. -/
def collect (key : α → Text) (f : α → Except ε β) (items : List α) : Except ε (Text.Map β) :=
  items.foldlM (fun m x => return m.insert (key x) (← f x)) ∅

variable {f : α → Except ε β} {m : Text.Map β}

theorem collect_append_singleton (key : α → Text) (f : α → Except ε β) (items : List α) (x : α) :
    collect key f (items ++ [x]) = (do
      let m ← collect key f items
      return m.insert (key x) (← f x)) := by
  simp [collect, List.foldlM_append]

/-- What one more item adds. -/
theorem collect_append_ok (h : collect key f (items ++ [x]) = .ok m) :
    ∃ earlier y, collect key f items = .ok earlier ∧ f x = .ok y ∧ m = earlier.insert (key x) y := by
  rw [collect_append_singleton, bind_eq_ok_iff] at h
  obtain ⟨earlier, hitems, h⟩ := h
  obtain ⟨y, hx, hinsert⟩ := bind_eq_ok_iff.mp h
  exact ⟨earlier, y, hitems, hx, (Except.ok.inj hinsert).symm⟩

theorem collect_error {e : ε} (h : collect key f items = .error e) : ∃ x ∈ items, f x = .error e := by
  induction items using List.reverseRecOn with
  | nil => cases h
  | append_singleton items x ih =>
      rw [collect_append_singleton, bind_eq_error_iff] at h
      rcases h with hitems | ⟨earlier, -, h⟩
      · obtain ⟨y, hy, herror⟩ := ih hitems
        exact ⟨y, List.mem_append_left _ hy, herror⟩
      · rcases bind_eq_error_iff.mp h with hx | ⟨_, -, hinsert⟩
        · exact ⟨x, by simp, hx⟩
        · cases hinsert

theorem exists_of_collect (h : collect key f items = .ok m) (hx : x ∈ items) : ∃ y, f x = .ok y := by
  induction items using List.reverseRecOn generalizing m with
  | nil => cases hx
  | append_singleton items z ih =>
      obtain ⟨earlier, y, hitems, hz, -⟩ := collect_append_ok h
      rcases List.mem_append.mp hx with hx | hx
      · exact ih hitems hx
      · exact ⟨y, List.mem_singleton.mp hx ▸ hz⟩

theorem exists_collect_iff : (∃ m, collect key f items = .ok m) ↔ ∀ x ∈ items, ∃ y, f x = .ok y := by
  constructor
  · rintro ⟨m, h⟩ x hx
    exact exists_of_collect h hx
  · intro hall
    cases h : collect key f items with
    | ok m => exact ⟨m, rfl⟩
    | error e =>
        obtain ⟨x, hx, herror⟩ := collect_error h
        obtain ⟨y, hy⟩ := hall x hx
        rw [herror] at hy
        cases hy

/-- Under a key stands what came of the last item with it. -/
theorem getElem?_collect (h : collect key f items = .ok m) (k : Text) (y : β) :
    m[k]? = some y ↔ ∃ x, LastBy key items x ∧ key x = k ∧ f x = .ok y := by
  induction items using List.reverseRecOn generalizing m with
  | nil =>
      obtain rfl : (∅ : Text.Map β) = m := by simpa [collect, pure, Except.pure] using h
      simp [not_lastBy_nil]
  | append_singleton items x ih =>
      obtain ⟨earlier, last, hitems, hx, rfl⟩ := collect_append_ok h
      rw [Std.ExtTreeMap.getElem?_insert]
      by_cases hk : key x = k
      · subst hk
        simp only [Std.ReflCmp.compare_self, ↓reduceIte, Option.some.injEq]
        constructor
        · rintro rfl
          exact ⟨x, lastBy_append_singleton.mpr (.inl rfl), rfl, hx⟩
        · rintro ⟨z, hz, hkey, hr⟩
          rcases lastBy_append_singleton.mp hz with rfl | ⟨-, hne⟩
          · rw [hx] at hr
            cases hr
            rfl
          · exact absurd hkey.symm hne
      · have hcmp : Text.order (key x) k ≠ .eq := fun heq => hk (Std.LawfulEqCmp.eq_of_compare heq)
        simp only [hcmp, ↓reduceIte, ih hitems]
        constructor
        · rintro ⟨z, hz, rfl, hr⟩
          exact ⟨z, lastBy_append_singleton.mpr (.inr ⟨hz, hk⟩), rfl, hr⟩
        · rintro ⟨z, hz, rfl, hr⟩
          rcases lastBy_append_singleton.mp hz with rfl | ⟨hz, -⟩
          · exact absurd rfl hk
          · exact ⟨z, hz, rfl, hr⟩

theorem mem_collect (h : collect key f items = .ok m) (k : Text) : k ∈ m ↔ ∃ x ∈ items, key x = k := by
  rw [Std.ExtTreeMap.mem_iff_isSome_getElem?, Option.isSome_iff_exists]
  constructor
  · rintro ⟨y, hy⟩
    obtain ⟨x, hx, hkey, -⟩ := (getElem?_collect h k y).mp hy
    exact ⟨x, hx.mem, hkey⟩
  · rintro ⟨x, hx, rfl⟩
    obtain ⟨last, hlast, hkey⟩ := exists_lastBy key hx
    obtain ⟨y, hy⟩ := exists_of_collect h hlast.mem
    exact ⟨y, (getElem?_collect h (key x) y).mpr ⟨last, hlast, hkey, hy⟩⟩

/-- An item has no influence on what stands under other keys. -/
theorem getElem?_collect_without {before after : List α} {others : Text.Map β}
    (h : collect key f (before ++ x :: after) = .ok m)
    (hothers : collect key f (before ++ after) = .ok others) {k : Text}
    (hk : k ≠ key x) : m[k]? = others[k]? := by
  apply Option.ext
  intro y
  rw [getElem?_collect h, getElem?_collect hothers]
  apply exists_congr
  intro z
  constructor
  · rintro ⟨hz, rfl, hy⟩
    exact ⟨(lastBy_without hk.symm).mp hz, rfl, hy⟩
  · rintro ⟨hz, rfl, hy⟩
    exact ⟨(lastBy_without hk.symm).mpr hz, rfl, hy⟩

end RuleFlow
