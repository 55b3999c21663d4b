import RuleFlow.Proofs.Json.Number
import RuleFlow.Proofs.Json.Strings

/-!
# Values are read as they were written

A value whose numbers are spelled as tokens is read back from its text. One word among them, such as `nan`, and the text
is not JSON.
-/

namespace RuleFlow.Json

mutual
/-- The number tokens of a value, in the order of its text. -/
def numbers : Json → List Text
  | number token => [token]
  | array items => numbersOfItems items
  | object members => numbersOfMembers members
  | null | bool _ | string _ => []

def numbersOfItems : List Json → List Text
  | [] => []
  | v :: rest => numbers v ++ numbersOfItems rest

def numbersOfMembers : List (Text × Json) → List Text
  | [] => []
  | (_, v) :: rest => numbers v ++ numbersOfMembers rest
end

@[simp] theorem numbersOfItems_eq (vs : List Json) : numbersOfItems vs = vs.flatMap numbers := by
  induction vs with
  | nil => rfl
  | cons v vs ih => rw [numbersOfItems, ih, List.flatMap_cons]

@[simp] theorem numbersOfMembers_eq (ms : List (Text × Json)) : numbersOfMembers ms = ms.flatMap (numbers ·.2) := by
  induction ms with
  | nil => rfl
  | cons m ms ih => rw [numbersOfMembers, ih, List.flatMap_cons]

/-- All of these are spelled as tokens or words. -/
def Spelled (ts : List Text) : Prop := ∀ t ∈ ts, Token t ∨ Word t

/-- There is a word among these. -/
def HasWord (ts : List Text) : Prop := ∃ t ∈ ts, Word t

instance : DecidablePred HasWord := fun ts => inferInstanceAs (Decidable (∃ t ∈ ts, Word t))

variable {ts us : List Text} {j : Json} {rest : Text} {fuel : Nat}

theorem spelled_append : Spelled (ts ++ us) ↔ Spelled ts ∧ Spelled us := List.forall_mem_append

theorem hasWord_append : HasWord (ts ++ us) ↔ HasWord ts ∨ HasWord us := by
  simp [HasWord, or_and_right, exists_or]

theorem hasWord_singleton {t : Text} : HasWord [t] ↔ Word t := by simp [HasWord]

/-! ## The front of a text -/

theorem skipBlanks_cons {b : UInt8} (h : ¬ isBlankByte b) (t : Text) : skipBlanks (b :: t) = b :: t := by
  simp [skipBlanks, h]

/-- The text of a value starts with no blank, and with nothing that closes a list. -/
theorem render_head (h : Spelled j.numbers) : ∃ b t, j.render = b :: t ∧ ¬ isBlankByte b ∧ b ≠ 93 := by
  cases j with
  | null => exact ⟨_, _, rfl, by decide, by decide⟩
  | bool b => cases b <;> exact ⟨_, _, rfl, by decide, by decide⟩
  | string s => exact ⟨_, _, by rw [render]; rfl, by decide, by decide⟩
  | array vs => exact ⟨_, _, by rw [render], by decide, by decide⟩
  | object ms => exact ⟨_, _, by rw [render], by decide, by decide⟩
  | number token =>
      rcases h token (by simp [numbers]) with htoken | rfl | rfl | rfl
      · obtain ⟨b, t, rfl, hb⟩ := htoken.head
        refine ⟨b, t, by rw [render], ?_⟩
        rcases hb with rfl | hb
        · decide
        · refine ⟨fun hblank => ?_, ?_⟩
          · simp only [isBlankByte, Bool.or_eq_true, beq_iff_eq] at hblank
            rcases hblank with ((rfl | rfl) | rfl) | rfl <;> exact absurd hb (by decide)
          · rintro rfl
            exact absurd hb (by decide)
      · exact ⟨_, _, by rw [render]; rfl, by decide, by decide⟩
      · exact ⟨_, _, by rw [render]; rfl, by decide, by decide⟩
      · exact ⟨_, _, by rw [render]; rfl, by decide, by decide⟩

theorem renderItems_cons (v : Json) (vs : List Json) :
    renderItems (v :: vs) = v.render ++ if vs = [] then [] else 44 :: renderItems vs := by
  cases vs with
  | nil => simp [renderItems]
  | cons w vs => simp [renderItems]

theorem renderMembers_cons (k : Text) (v : Json) (ms : List (Text × Json)) :
    renderMembers ((k, v) :: ms) = quote k ++ ": " ++ v.render ++ if ms = [] then [] else 44 :: renderMembers ms := by
  cases ms with
  | nil => simp [renderMembers]
  | cons m ms => simp [renderMembers]

/-! ## One step of the reader -/

theorem value_blank (t : Text) : value fuel (32 :: t) = value fuel t := by
  cases fuel <;> rfl

theorem value_string (t : Text) : value (fuel + 1) (34 :: t) = (stringTail t).map fun (s, rest) => (string s, rest) :=
  rfl

theorem value_quote (s rest : Text) : value (fuel + 1) (quote s ++ rest) = some (string s, rest) := by
  have htext : quote s ++ rest = 34 :: (escape s ++ 34 :: rest) := by simp [quote]
  rw [htext, value_string, stringTail_escape, Option.map_some]

theorem value_array {b : UInt8} (hblank : ¬ isBlankByte b) (hclose : b ≠ 93) (t : Text) :
    value (fuel + 1) (91 :: b :: t) = (items fuel (b :: t)).map fun (vs, rest) => (array vs, rest) := by
  rw [value, skipBlanks_cons (by decide)]
  simp only [skipBlanks_cons hblank]
  split
  · rename_i heq
    exact absurd (List.cons.inj heq).1 hclose
  · rfl

theorem value_object (t : Text) :
    value (fuel + 1) (123 :: 34 :: t) = (members fuel (34 :: t)).map fun (ms, rest) => (object ms, rest) := rfl

theorem value_token {t : Text} (h : Token t) (hrest : EndsNumber rest) :
    value (fuel + 1) (t ++ rest) = some (number t, rest) := by
  have hread := h.read hrest
  obtain ⟨b, bs, rfl, hb⟩ := h.head
  have hne : ∀ c ∈ [123, 91, 34, 116, 102, 110, 32, 10, 13, 9], b ≠ c := by
    rintro c hc rfl
    rcases hb with rfl | hb
    · exact absurd hc (by decide)
    · simp only [List.mem_cons, List.not_mem_nil, or_false] at hc
      rcases hc with rfl | rfl | rfl | rfl | rfl | rfl | rfl | rfl | rfl | rfl <;> exact absurd hb (by decide)
  have hblank : ¬ isBlankByte b := by simp [isBlankByte, hne]
  rw [List.cons_append] at hread ⊢
  rw [value, skipBlanks_cons hblank]
  split <;> simp_all

theorem value_word {t : Text} (h : Word t) : value (fuel + 1) (t ++ rest) = none := by
  rcases h with rfl | rfl | rfl
  · rfl
  · rfl
  · rfl

theorem items_none {t : Text} (h : value fuel t = none) : items (fuel + 1) t = none := by
  rw [items, h]
  rfl

theorem items_last {t : Text} {v : Json} (h : value fuel t = some (v, 93 :: rest)) :
    items (fuel + 1) t = some ([v], rest) := by
  rw [items, h]
  rfl

theorem items_more {t : Text} {v : Json} (h : value fuel t = some (v, 44 :: rest)) :
    items (fuel + 1) t = (items fuel rest).map fun (vs, rest) => (v :: vs, rest) := by
  rw [items, h]
  rfl

theorem members_blank (t : Text) : members fuel (32 :: t) = members fuel t := by
  cases fuel <;> rfl

/-- After a key and its value the members end, or there is another one. -/
theorem members_key (fuel : Nat) (k t : Text) : ∃ next : Json × Text → Option (List (Text × Json) × Text),
    members (fuel + 1) (quote k ++ ": " ++ t) = (value fuel t).bind next ∧
    (∀ v rest, next (v, 125 :: rest) = some ([(k, v)], rest)) ∧
    ∀ v rest, next (v, 44 :: rest) = (members fuel rest).map fun (ms, rest) => ((k, v) :: ms, rest) := by
  have htext : quote k ++ ": " ++ t = 34 :: (escape k ++ 34 :: 58 :: 32 :: t) := by
    simp only [quote, List.cons_append, List.append_assoc, List.nil_append]
    rfl
  refine ⟨?next, ?key, fun v rest => ?last, fun v rest => ?more⟩
  case key =>
    have hquote : skipBlanks (34 :: (escape k ++ 34 :: 58 :: 32 :: t)) = _ := skipBlanks_cons (by decide) _
    have hcolon : skipBlanks (58 :: 32 :: t) = _ := skipBlanks_cons (by decide) _
    rw [htext, members, hquote]
    simp only [stringTail_escape, hcolon, value_blank, Option.bind_eq_bind, Option.bind_some]
    rfl
  case last => rfl
  case more => rfl

theorem members_none {t : Text} (h : value fuel t = none) (k : Text) :
    members (fuel + 1) (quote k ++ ": " ++ t) = none := by
  obtain ⟨next, hmembers, -⟩ := members_key fuel k t
  rw [hmembers, h, Option.bind_none]

theorem members_last {t : Text} {v : Json} (h : value fuel t = some (v, 125 :: rest)) (k : Text) :
    members (fuel + 1) (quote k ++ ": " ++ t) = some ([(k, v)], rest) := by
  obtain ⟨next, hmembers, hlast, -⟩ := members_key fuel k t
  rw [hmembers, h, Option.bind_some, hlast]

theorem members_more {t : Text} {v : Json} (h : value fuel t = some (v, 44 :: rest)) (k : Text) :
    members (fuel + 1) (quote k ++ ": " ++ t) = (members fuel rest).map fun (ms, rest) => ((k, v) :: ms, rest) := by
  obtain ⟨next, hmembers, -, hmore⟩ := members_key fuel k t
  rw [hmembers, h, Option.bind_some, hmore]

/-! ## Enough fuel -/

/-- What is read of a text with these numbers. -/
def readAs {α : Type} (ts : List Text) (a : α) (rest : Text) : Option (α × Text) :=
  if HasWord ts then none else some (a, rest)

theorem readAs_of_hasWord {α : Type} (h : HasWord ts) (a : α) : readAs ts a rest = none := if_pos h

theorem readAs_of_not {α : Type} (h : ¬ HasWord ts) (a : α) : readAs ts a rest = some (a, rest) := if_neg h

theorem readAs_append {α : Type} (h : ¬ HasWord ts) (a : α) : readAs (ts ++ us) a rest = readAs us a rest := by
  simp [readAs, hasWord_append, h]

theorem readAs_map {α β : Type} (f : α → β) (a : α) :
    (readAs ts a rest).map (fun (a, rest) => (f a, rest)) = readAs ts (f a) rest := by
  unfold readAs
  split <;> rfl

/-- The reader takes values with so much fuel. -/
def ReadsValues (fuel : Nat) : Prop :=
  ∀ (j : Json) (rest : Text), Spelled j.numbers → EndsNumber rest → j.render.length ≤ fuel →
    value fuel (j.render ++ rest) = readAs j.numbers j rest

/-- The reader takes the items of an array with so much fuel. -/
def ReadsItems (fuel : Nat) : Prop :=
  ∀ (vs : List Json) (rest : Text), vs ≠ [] → Spelled (vs.flatMap numbers) → (renderItems vs).length < fuel →
    items fuel (renderItems vs ++ 93 :: rest) = readAs (vs.flatMap numbers) vs rest

/-- The reader takes the members of an object with so much fuel. -/
def ReadsMembers (fuel : Nat) : Prop :=
  ∀ (ms : List (Text × Json)) (rest : Text), ms ≠ [] → Spelled (ms.flatMap (numbers ·.2)) →
    (renderMembers ms).length < fuel →
    members fuel (renderMembers ms ++ 125 :: rest) = readAs (ms.flatMap (numbers ·.2)) ms rest

theorem readsValues_succ (hitems : ReadsItems fuel) (hmembers : ReadsMembers fuel) : ReadsValues (fuel + 1) := by
  intro j rest hspelled hrest hfuel
  cases j with
  | null => rfl
  | bool b => cases b <;> rfl
  | number token =>
      rw [render]
      rcases hspelled token (by simp [numbers]) with htoken | hword
      · rw [value_token htoken hrest, readAs, if_neg]
        simpa [numbers, hasWord_singleton] using htoken.not_word
      · rw [value_word hword, readAs, if_pos]
        simpa [numbers, hasWord_singleton] using hword
  | string s =>
      rw [render, value_quote]
      rfl
  | array vs =>
      cases vs with
      | nil => rfl
      | cons v vs =>
          have hspelled : Spelled ((v :: vs).flatMap numbers) := by simpa [numbers] using hspelled
          have hread := hitems (v :: vs) rest (by simp) hspelled (by simp [render] at hfuel; omega)
          obtain ⟨b, t, hb, hblank, hclose⟩ := render_head (spelled_append.mp hspelled).1
          rw [renderItems_cons, hb] at hread
          rw [render, renderItems_cons, hb]
          simp only [List.cons_append, List.append_assoc, List.nil_append] at hread ⊢
          rw [value_array hblank hclose, hread, readAs_map]
          simp [numbers]
  | object ms =>
      cases ms with
      | nil => rfl
      | cons m ms =>
          have hspelled : Spelled ((m :: ms).flatMap (numbers ·.2)) := by simpa [numbers] using hspelled
          have hread := hmembers (m :: ms) rest (by simp) hspelled (by simp [render] at hfuel; omega)
          rw [renderMembers_cons, quote] at hread
          rw [render, renderMembers_cons, quote]
          simp only [List.cons_append, List.append_assoc, List.nil_append] at hread ⊢
          rw [value_object, hread, readAs_map]
          simp [numbers]

theorem readsItems_succ (hvalues : ReadsValues fuel) (hitems : ReadsItems fuel) : ReadsItems (fuel + 1) := by
  intro vs rest hne hspelled hfuel
  cases vs with
  | nil => exact absurd rfl hne
  | cons v vs =>
      rw [List.flatMap_cons] at hspelled ⊢
      obtain ⟨hfirst, hothers⟩ := spelled_append.mp hspelled
      rw [renderItems_cons, List.append_assoc]
      rw [renderItems_cons, List.length_append] at hfuel
      have hvalue := hvalues v ((if vs = [] then [] else 44 :: renderItems vs) ++ 93 :: rest) hfirst
        (by split <;> exact endsNumber_cons (by decide)) (by omega)
      -- a word in the first item ends the reading, so that the others do not matter
      by_cases hword : HasWord v.numbers
      · rw [readAs_of_hasWord hword] at hvalue
        rw [items_none hvalue, readAs_of_hasWord (hasWord_append.mpr (.inl hword))]
      · rw [readAs_of_not hword] at hvalue
        rw [readAs_append hword]
        by_cases hvs : vs = []
        · subst hvs
          rw [items_last hvalue]
          rfl
        · rw [if_neg hvs, List.cons_append] at hvalue ⊢
          rw [if_neg hvs, List.length_cons] at hfuel
          rw [items_more hvalue, hitems vs rest hvs hothers (by omega), readAs_map]

theorem readsMembers_succ (hvalues : ReadsValues fuel) (hmembers : ReadsMembers fuel) : ReadsMembers (fuel + 1) := by
  intro ms rest hne hspelled hfuel
  cases ms with
  | nil => exact absurd rfl hne
  | cons m ms =>
      obtain ⟨k, v⟩ := m
      rw [List.flatMap_cons] at hspelled ⊢
      obtain ⟨hfirst, hothers⟩ := spelled_append.mp hspelled
      rw [renderMembers_cons, List.append_assoc, List.append_assoc]
      rw [renderMembers_cons, List.length_append, List.length_append] at hfuel
      have hvalue := hvalues v ((if ms = [] then [] else 44 :: renderMembers ms) ++ 125 :: rest) hfirst
        (by split <;> exact endsNumber_cons (by decide)) (by omega)
      by_cases hword : HasWord v.numbers
      · rw [readAs_of_hasWord hword] at hvalue
        rw [members_none hvalue, readAs_of_hasWord (hasWord_append.mpr (.inl hword))]
      · rw [readAs_of_not hword] at hvalue
        rw [readAs_append hword]
        by_cases hms : ms = []
        · subst hms
          rw [members_last hvalue]
          rfl
        · rw [if_neg hms, List.cons_append] at hvalue ⊢
          rw [if_neg hms, List.length_cons] at hfuel
          rw [members_more hvalue, hmembers ms rest hms hothers (by omega), readAs_map]

/-- Each unit of fuel pays for a byte. -/
theorem reads (fuel : Nat) : ReadsValues fuel ∧ ReadsItems fuel ∧ ReadsMembers fuel := by
  induction fuel with
  | zero =>
      refine ⟨fun j rest hspelled _ hfuel => ?_, fun _ _ _ _ hfuel => ?_, fun _ _ _ _ hfuel => ?_⟩
      · obtain ⟨b, t, hb, -⟩ := render_head hspelled
        simp [hb] at hfuel
      · cases hfuel
      · cases hfuel
  | succ fuel ih =>
      -- a value leaves its first byte to its parts, and a list its separator to its rest
      obtain ⟨hvalues, hitems, hmembers⟩ := ih
      exact ⟨readsValues_succ hitems hmembers, readsItems_succ hvalues hitems, readsMembers_succ hvalues hmembers⟩

/-! ## Whole texts -/

/-- All number tokens of the value have the property. -/
def AllNumbers (p : Text → Prop) (j : Json) : Prop := ∀ t ∈ j.numbers, p t

section AllNumbers

variable {p : Text → Prop}

@[simp] theorem allNumbers_null : AllNumbers p null := by simp [AllNumbers, numbers]

@[simp] theorem allNumbers_bool (b : Bool) : AllNumbers p (bool b) := by simp [AllNumbers, numbers]

@[simp] theorem allNumbers_string (t : Text) : AllNumbers p (string t) := by simp [AllNumbers, numbers]

@[simp] theorem allNumbers_number (t : Text) : AllNumbers p (number t) ↔ p t := by simp [AllNumbers, numbers]

theorem allNumbers_array (vs : List Json) : AllNumbers p (array vs) ↔ ∀ v ∈ vs, AllNumbers p v := by
  simp only [AllNumbers, numbers, numbersOfItems_eq, List.mem_flatMap]
  exact ⟨fun h v hv t ht => h t ⟨v, hv, ht⟩, fun h t ⟨v, hv, ht⟩ => h v hv t ht⟩

theorem allNumbers_object (ms : List (Text × Json)) : AllNumbers p (object ms) ↔ ∀ m ∈ ms, AllNumbers p m.2 := by
  simp only [AllNumbers, numbers, numbersOfMembers_eq, List.mem_flatMap]
  exact ⟨fun h m hm t ht => h t ⟨m, hm, ht⟩, fun h t ⟨m, hm, ht⟩ => h m hm t ht⟩

@[simp] theorem allNumbers_array_map {α : Type} (f : α → Json) (as : List α) :
    AllNumbers p (array (as.map f)) ↔ ∀ a ∈ as, AllNumbers p (f a) := by
  rw [allNumbers_array, List.forall_mem_map]

@[simp] theorem allNumbers_object_nil : AllNumbers p (object []) := by simp [allNumbers_object]

@[simp] theorem allNumbers_object_cons (m : Text × Json) (ms : List (Text × Json)) :
    AllNumbers p (object (m :: ms)) ↔ AllNumbers p m.2 ∧ AllNumbers p (object ms) := by
  simp [allNumbers_object]

@[simp] theorem allNumbers_object_map {α : Type} (f : α → Text × Json) (as : List α) :
    AllNumbers p (object (as.map f)) ↔ ∀ a ∈ as, AllNumbers p (f a).2 := by
  rw [allNumbers_object, List.forall_mem_map]

@[simp] theorem allNumbers_ofOption (t : Option Text) : AllNumbers p (ofOption t) := by cases t <;> simp [ofOption]

@[simp] theorem allNumbers_strings (ts : List Text) : AllNumbers p (strings ts) := by simp [strings]

@[simp] theorem allNumbers_nat (n : Nat) : AllNumbers p (nat n) ↔ p (Text.ofNat n) := allNumbers_number _

@[simp] theorem allNumbers_int (n : Int) : AllNumbers p (int n) ↔ p (Text.ofInt n) := allNumbers_number _

end AllNumbers

/-- The text of a value is read back if its numbers are tokens. -/
theorem parse_render (h : j.AllNumbers Token) : parse j.render = some j := by
  have hread := (reads (j.render.length + 1)).1 j [] (fun t ht => .inl (h t ht)) endsNumber_nil (by omega)
  rw [List.append_nil, readAs_of_not (fun ⟨t, ht, hword⟩ => (h t ht).not_word hword)] at hread
  rw [parse, hread]
  rfl

/-- With a word in place of a number, the text of a value is no JSON. -/
theorem parse_render_of_word (h : j.AllNumbers fun t => Token t ∨ Word t) (hword : ¬ j.AllNumbers fun t => ¬ Word t) :
    parse j.render = none := by
  have hread := (reads (j.render.length + 1)).1 j [] h endsNumber_nil (by omega)
  rw [List.append_nil, readAs_of_hasWord (by simpa [AllNumbers, HasWord] using hword)] at hread
  rw [parse, hread]
  rfl

end RuleFlow.Json
