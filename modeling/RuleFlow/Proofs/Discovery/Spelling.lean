import RuleFlow.Proofs.Discovery
import RuleFlow.Proofs.Keyed
import RuleFlow.Proofs.Path.Names

/-!
# Spellings of a listed file

A listed file is resolved to a normal form. Spellings of one file (`SameFile`) have one normal form, so that it does not
matter how, how often and in which order the files are listed. Only a root of several slashes is kept as it stands in
front of relative files, and these then differ from their absolute spellings.
-/

namespace RuleFlow

namespace Path

variable {p q r x y n : Text} {back : List Text}

/-! ## Normal form -/

/-- The path has slashes in front, then names with a single slash between any two, and at most one slash behind the
last. -/
def IsNormal (p : Text) : Prop :=
  ∃ r ns, r ≠ [] ∧ (∀ b ∈ r, b = slash) ∧ (∀ n ∈ ns, IsName n) ∧
    (p = r ++ Text.join [slash] ns ∨ ns ≠ [] ∧ p = r ++ Text.join [slash] ns ++ [slash])

theorem isName_of_mem_pushName (hback : ∀ m ∈ back, IsName m) (hne : n ≠ []) (hslash : slash ∉ n) :
    ∀ m ∈ pushName true back n, IsName m := by
  intro m hm
  unfold pushName at hm
  split at hm
  · exact hback m hm
  rename_i hdot
  split at hm
  · split at hm
    · simp at hm
    · split at hm
      · rename_i last rest heq
        exact absurd heq (hback last List.mem_cons_self).ne_dotDot
      · exact hback m (List.mem_cons_of_mem _ hm)
  · rename_i hdotDot
    rcases List.mem_cons.mp hm with rfl | hm
    · exact ⟨hne, hslash, fun h => hdot (by simp [h]), hdotDot⟩
    · exact hback m hm

/-- From the root nothing leads upwards any more. -/
theorem isName_of_mem_normalNames (hp : isAbsolute p) : ∀ n ∈ normalNames p, IsName n := by
  have hrun : ∀ ns back : List Text, (∀ n ∈ ns, n ≠ [] ∧ slash ∉ n) → (∀ m ∈ back, IsName m) →
      ∀ m ∈ ns.foldl (pushName true) back, IsName m := by
    intro ns
    induction ns with
    | nil => exact fun back _ hback => hback
    | cons n ns ih =>
        intro back hns hback
        obtain ⟨⟨hne, hslash⟩, hns⟩ := List.forall_mem_cons.mp hns
        exact ih _ hns (isName_of_mem_pushName hback hne hslash)
  intro n hn
  rw [normalNames, hp, List.mem_reverse] at hn
  exact hrun (names p) [] (fun n hn => ⟨ne_nil_of_mem_names hn, slash_notMem_of_mem_names hn⟩) (by simp) n hn

theorem normalizeAt_eq (hr : r ≠ []) (hp : p ≠ []) : normalizeAt r p = r ++ normalRest p := by
  rw [normalizeAt, if_neg (by simpa using hp)]
  exact if_neg (by simp [hr])

theorem isNormal_normalizeAt (hr : r ≠ []) (hslashes : ∀ b ∈ r, b = slash) (hp : isAbsolute p) :
    IsNormal (normalizeAt r p) := by
  obtain ⟨rest, hrest⟩ := isAbsolute_iff.mp hp
  refine ⟨r, normalNames p, hr, hslashes, isName_of_mem_normalNames hp, ?_⟩
  rw [normalizeAt_eq hr (by simp [hrest])]
  cases hns : normalNames p with
  | nil => simp [normalRest, ofNames, hns]
  | cons n ns =>
      rw [normalRest, hns]
      split
      · have hjoin : Text.join [slash] (n :: ns ++ [[]]) = Text.join [slash] (n :: ns) ++ [slash] :=
          join_concat (List.cons_ne_nil n ns) []
        exact .inr ⟨List.cons_ne_nil n ns, by rw [ofNames, hjoin]; simp⟩
      · exact .inl (by simp [ofNames])

/-! ## What the normal form depends on -/

/-- Paths that come to the same names, with the same end. -/
structure Alike (p q : Text) : Prop where
  isAbsolute_eq : isAbsolute p = isAbsolute q
  normalNames_eq : normalNames p = normalNames q
  fileName_eq : fileName p = fileName q

theorem Alike.normalRest_eq (h : Alike p q) : normalRest p = normalRest q := by
  have hend : endsInDirectory p = endsInDirectory q := by
    rw [endsInDirectory, endsInDirectory, h.fileName_eq]
  rw [normalRest, normalRest, h.normalNames_eq, hend]

/-- Behind a slash only what names do to those before them matters. -/
theorem alike_of_foldl (front : Text) (hlast : fileName x = fileName y)
    (hnames : ∀ absolute back, (names x).foldl (pushName absolute) back = (names y).foldl (pushName absolute) back) :
    Alike (front ++ slash :: x) (front ++ slash :: y) := by
  have habsolute : isAbsolute (front ++ slash :: x) = isAbsolute (front ++ slash :: y) := by
    cases front <;> rfl
  refine ⟨habsolute, ?_, by rw [fileName_append_slash, fileName_append_slash, hlast]⟩
  rw [normalNames, normalNames, habsolute, names_append_slash, names_append_slash, List.foldl_append, List.foldl_append,
    hnames]

theorem alike_slash (front b : Text) : Alike (front ++ slash :: slash :: b) (front ++ slash :: b) := by
  refine alike_of_foldl front ?_ fun absolute back => ?_
  · exact fileName_append_slash [] b
  · rw [← List.nil_append (slash :: b), names_append_slash]
    rfl

theorem names_dot_slash (b : Text) : names (dot ++ slash :: b) = dot :: names b :=
  names_append_slash dot b

theorem names_dotDot_slash (b : Text) : names (dotDot ++ slash :: b) = dotDot :: names b :=
  names_append_slash dotDot b

theorem pushName_of_isName (absolute : Bool) (back : List Text) (hn : IsName n) :
    pushName absolute back n = n :: back := by
  simp [pushName, hn.ne_nil, hn.ne_dot, hn.ne_dotDot]

theorem alike_dot (front b : Text) : Alike (front ++ slash :: (dot ++ slash :: b)) (front ++ slash :: b) := by
  refine alike_of_foldl front (fileName_append_slash dot b) fun absolute back => ?_
  rw [names_dot_slash, List.foldl_cons]
  rfl

/-- A name and the way up after it leave what was before them. -/
theorem alike_dotDot (front b : Text) (hn : IsName n) :
    Alike (front ++ slash :: (n ++ slash :: (dotDot ++ slash :: b))) (front ++ slash :: b) := by
  refine alike_of_foldl front ?_ fun absolute back => ?_
  · rw [fileName_append_slash, fileName_append_slash]
  · have hback : pushName absolute (n :: back) dotDot = back := if_neg hn.ne_dotDot
    rw [names_append_slash, hn.names_eq, names_dotDot_slash, List.singleton_append, List.foldl_cons, List.foldl_cons,
      pushName_of_isName absolute back hn, hback]

/-- Above the root is the root. -/
theorem alike_top (b : Text) : Alike (slash :: (dotDot ++ slash :: b)) (slash :: b) where
  isAbsolute_eq := rfl
  normalNames_eq := by
    have hnames : ∀ c, names (slash :: c) = names c := names_append_slash []
    rw [normalNames, normalNames, hnames, hnames, names_dotDot_slash, List.foldl_cons]
    rfl
  fileName_eq := fileName_append_slash (slash :: dotDot) b |>.trans (fileName_append_slash [] b).symm

/-! ## Roots -/

/-- The path has a byte that is no slash in front. -/
def StartsName (p : Text) : Prop := ∃ c rest, p = c :: rest ∧ c ≠ slash

theorem StartsName.isAbsolute_eq (h : StartsName p) : isAbsolute p = false := by
  obtain ⟨c, rest, rfl, hc⟩ := h
  simpa [isAbsolute] using hc

theorem StartsName.append_left (h : StartsName q) (p : Text) : ∃ c ∈ p ++ q, c ≠ slash := by
  obtain ⟨c, rest, rfl, hc⟩ := h
  exact ⟨c, by simp, hc⟩

/-- Several slashes and nothing else. -/
def IsDoubled (p : Text) : Prop := 2 ≤ p.length ∧ ∀ b ∈ p, b = slash

instance (p : Text) : Decidable (IsDoubled p) :=
  decidable_of_iff (2 ≤ p.length ∧ p.all (· == slash)) (by simp [IsDoubled])

/-- The root of an absolute path is a single slash, unless there is nothing but slashes. -/
theorem root_cases (hp : isAbsolute p) :
    (∃ c ∈ p, c ≠ slash) ∧ root p = [slash] ∨ (∀ b ∈ p, b = slash) ∧ root p = p := by
  by_cases hne : ∃ c ∈ p, c ≠ slash
  · have hall : p.all (· == slash) = false := by simpa using hne
    exact .inl ⟨hne, by rw [root, hall, if_neg Bool.false_ne_true, if_pos hp]⟩
  · have hall : ∀ b ∈ p, b = slash := by simpa using hne
    exact .inr ⟨hall, by rw [root, if_pos (by simpa using hall)]⟩

theorem root_of_ne (hp : isAbsolute p) (hne : ∃ c ∈ p, c ≠ slash) : root p = [slash] := by
  rcases root_cases hp with ⟨-, hroot⟩ | ⟨hall, -⟩
  · exact hroot
  · obtain ⟨c, hc, hcne⟩ := hne
    exact absurd (hall c hc) hcne

theorem slashes_root (hp : isAbsolute p) : root p ≠ [] ∧ ∀ b ∈ root p, b = slash := by
  rcases root_cases hp with ⟨-, hroot⟩ | ⟨hall, hroot⟩
  · rw [hroot]
    simp
  · rw [hroot]
    obtain ⟨rest, rfl⟩ := isAbsolute_iff.mp hp
    exact ⟨List.cons_ne_nil _ _, hall⟩

theorem root_eq_slash_iff (hp : isAbsolute p) : root p = [slash] ↔ ¬ IsDoubled p := by
  obtain ⟨rest, rfl⟩ := isAbsolute_iff.mp hp
  rcases root_cases hp with ⟨⟨c, hc, hne⟩, hroot⟩ | ⟨hall, hroot⟩
  · exact iff_of_true hroot fun hdoubled => hne (hdoubled.2 c hc)
  · rw [hroot]
    cases rest with
    | nil => simp [IsDoubled]
    | cons b rest => simpa [IsDoubled] using hall

theorem endsInSlash_of_fileName (hp : p ≠ []) (h : fileName p = []) : ∃ front, p = front ++ [slash] := by
  rcases List.eq_nil_or_concat p with rfl | ⟨front, b, rfl⟩
  · exact absurd rfl hp
  · by_cases hb : b = slash
    · exact ⟨front, by rw [hb, List.concat_eq_append]⟩
    · simp [fileName, hb] at h

end Path

namespace Discovery

open RuleFlow.Parser (Descriptor FilesByKind)
open RuleFlow.Path

variable {base root a x y f g n b p : Text} {ds : List Descriptor} {files : List Text}

/-! ## Resolved files -/

/-- The normal form of a file that is seen from an absolute path. -/
def place (root file : Text) : Text :=
  if isAbsolute file then normalize file else normalizeAt (Path.root root) (append root file)

theorem place_of_isAbsolute (hf : isAbsolute f) : place root f = normalize f := if_pos hf

theorem place_of_relative (hf : isAbsolute f = false) :
    place root f = normalizeAt (Path.root root) (append root f) := by
  rw [place, hf, if_neg Bool.false_ne_true]

/-- Relative files are put behind one and the same text, which ends in a slash. -/
theorem exists_lead (hroot : isAbsolute root) :
    ∃ front, isAbsolute (front ++ [slash]) ∧ ∀ f, isAbsolute f = false → append root f = front ++ slash :: f := by
  obtain ⟨rest, rfl⟩ := isAbsolute_iff.mp hroot
  have happend : ∀ f, isAbsolute f = false → append (slash :: rest) f =
      if (fileName (slash :: rest)).isEmpty then slash :: rest ++ f else slash :: rest ++ slash :: f := by
    intro f hf
    rw [append, hf]
    rfl
  by_cases hlast : (fileName (slash :: rest)).isEmpty
  · obtain ⟨front, hfront⟩ := endsInSlash_of_fileName (List.cons_ne_nil _ _) (List.isEmpty_iff.mp hlast)
    refine ⟨front, by rw [← hfront]; exact hroot, fun f hf => ?_⟩
    rw [happend f hf, if_pos hlast, hfront, List.append_assoc, List.singleton_append]
  · refine ⟨slash :: rest, rfl, fun f hf => ?_⟩
    rw [happend f hf, if_neg hlast]

theorem resolve_eq (base : Text) (hroot : isAbsolute root) (f : Text) : resolve base root f = .ok (place root f) := by
  by_cases hf : isAbsolute f
  · rw [resolve, if_pos hf, place_of_isAbsolute hf]
  · have hrelative : isAbsolute f = false := by simpa using hf
    obtain ⟨front, -, happend⟩ := exists_lead hroot
    have hne : (append root f).isEmpty = false := by
      rw [happend f hrelative]
      simp
    rw [resolve, if_neg hf, place_of_relative hrelative]
    dsimp only
    rw [hne, if_neg Bool.false_ne_true, if_pos hroot]

theorem normalizeAt_congr {r p q : Text} (hr : r ≠ []) (hp : p ≠ []) (hq : q ≠ []) (h : Alike p q) :
    normalizeAt r p = normalizeAt r q := by
  rw [normalizeAt_eq hr hp, normalizeAt_eq hr hq, h.normalRest_eq]

theorem isNormal_place (hroot : isAbsolute root) (f : Text) : IsNormal (place root f) := by
  by_cases hf : isAbsolute f
  · obtain ⟨hne, hslashes⟩ := slashes_root hf
    rw [place_of_isAbsolute hf, Path.normalize]
    exact isNormal_normalizeAt hne hslashes hf
  · have hrelative : isAbsolute f = false := by simpa using hf
    obtain ⟨hne, hslashes⟩ := slashes_root hroot
    obtain ⟨front, hfront, happend⟩ := exists_lead hroot
    rw [place_of_relative hrelative, happend f hrelative, List.append_cons]
    exact isNormal_normalizeAt hne hslashes (by rw [isAbsolute_append (by simp)]; exact hfront)

/-! ## Spellings of one file -/

/-- The text leads up to a name: there is nothing, or a slash at its end. -/
def LeadsUp (a : Text) : Prop := a = [] ∨ [slash] <:+ a

/-- The two texts spell one file, where relative ones are seen from `root`: they differ by slashes and by names that
lead nowhere, or by the root in front if that is a single slash or has a name. -/
inductive SameFile (root : Text) : Text → Text → Prop
  | refl (f : Text) : SameFile root f f
  | symm {f g : Text} : SameFile root f g → SameFile root g f
  | trans {f g h : Text} : SameFile root f g → SameFile root g h → SameFile root f h
  | slash {a b : Text} : [slash] <:+ a → StartsName b → SameFile root (a ++ slash :: b) (a ++ b)
  | dot {a b : Text} : LeadsUp a → StartsName b → SameFile root (a ++ (dot ++ slash :: b)) (a ++ b)
  | dotDot {a n b : Text} : LeadsUp a → IsName n → StartsName b →
      SameFile root (a ++ (n ++ slash :: (dotDot ++ slash :: b))) (a ++ b)
  | top {b : Text} : StartsName b → SameFile root (slash :: (dotDot ++ slash :: b)) (slash :: b)
  | seen {f : Text} : ¬ IsDoubled root → StartsName f → SameFile root f (append root f)

/-- Different ends that come to the same behind every slash come to the same place. -/
theorem place_congr (hroot : isAbsolute root)
    (ha : a = [] ∧ isAbsolute x = false ∧ isAbsolute y = false ∨ [slash] <:+ a)
    (hx : ∃ c ∈ x, c ≠ slash) (hy : ∃ c ∈ y, c ≠ slash)
    (h : ∀ front, Alike (front ++ slash :: x) (front ++ slash :: y)) :
    place root (a ++ x) = place root (a ++ y) := by
  obtain ⟨front, -, happend⟩ := exists_lead hroot
  have hseen : ∀ mid, normalizeAt (Path.root root) (mid ++ slash :: x) =
      normalizeAt (Path.root root) (mid ++ slash :: y) :=
    fun mid => normalizeAt_congr (slashes_root hroot).1 (by simp) (by simp) (h mid)
  -- with nothing before them both are seen from the root of the search, else both or neither are
  rcases ha with ⟨rfl, hxrel, hyrel⟩ | ⟨mid, rfl⟩
  · rw [List.nil_append, List.nil_append, place_of_relative hxrel, place_of_relative hyrel, happend x hxrel,
      happend y hyrel, hseen]
  · rw [List.append_assoc, List.append_assoc, List.singleton_append, List.singleton_append]
    have habsolute := (h mid).isAbsolute_eq
    by_cases hx' : isAbsolute (mid ++ slash :: x)
    · have hy' : isAbsolute (mid ++ slash :: y) := habsolute ▸ hx'
      have hroots : ∀ z, (∃ c ∈ z, c ≠ slash) → isAbsolute (mid ++ slash :: z) →
          Path.root (mid ++ slash :: z) = [slash] := by
        rintro z ⟨c, hc, hne⟩ hz
        exact root_of_ne hz ⟨c, by simp [hc], hne⟩
      rw [place_of_isAbsolute hx', place_of_isAbsolute hy', Path.normalize, Path.normalize, hroots x hx hx',
        hroots y hy hy']
      exact normalizeAt_congr (List.cons_ne_nil _ _) (by simp) (by simp) (h mid)
    · have hxrel : isAbsolute (mid ++ slash :: x) = false := by simpa using hx'
      have hyrel : isAbsolute (mid ++ slash :: y) = false := habsolute ▸ hxrel
      rw [place_of_relative hxrel, place_of_relative hyrel, happend _ hxrel, happend _ hyrel]
      have hmid := hseen (front ++ slash :: mid)
      simpa only [List.append_assoc, List.cons_append] using hmid

/-- A file that is seen from an absolute path has the root of that path in front of its names, and spelled out it has a
single slash. -/
theorem place_seen (hroot : isAbsolute root) (hf : StartsName f) :
    place root f = Path.root root ++ normalRest (append root f) ∧
      place root (append root f) = [slash] ++ normalRest (append root f) := by
  obtain ⟨front, hfront, happend⟩ := exists_lead hroot
  have hseen : append root f = (front ++ [slash]) ++ f := by
    rw [happend f hf.isAbsolute_eq, List.append_cons]
  have habsolute : isAbsolute (append root f) := by
    rw [hseen, isAbsolute_append (by simp)]
    exact hfront
  have hne : append root f ≠ [] := by simp [hseen]
  have hsingle : Path.root (append root f) = [slash] := root_of_ne habsolute (hseen ▸ hf.append_left _)
  constructor
  · rw [place_of_relative hf.isAbsolute_eq, normalizeAt_eq (slashes_root hroot).1 hne]
  · rw [place_of_isAbsolute habsolute, Path.normalize, hsingle, normalizeAt_eq (List.cons_ne_nil _ _) hne]

/-- A relative file is spelled out to the same place exactly if the root is not doubled. -/
theorem place_seen_iff (hroot : isAbsolute root) (hf : StartsName f) :
    place root f = place root (append root f) ↔ ¬ IsDoubled root := by
  obtain ⟨hrelative, hspelled⟩ := place_seen hroot hf
  rw [hrelative, hspelled, List.append_left_inj, root_eq_slash_iff hroot]

theorem SameFile.place_eq (hroot : isAbsolute root) (h : SameFile root f g) : place root f = place root g := by
  induction h with
  | refl => rfl
  | symm _ ih => exact ih.symm
  | trans _ _ ihf ihg => exact ihf.trans ihg
  | @slash a b ha hb =>
      exact place_congr hroot (.inr ha) (hb.append_left [Path.slash]) (hb.append_left []) fun front =>
        alike_slash front b
  | @dot a b ha hb =>
      refine place_congr hroot ?_ (hb.append_left (Path.dot ++ [Path.slash])) (hb.append_left []) fun front =>
        alike_dot front b
      rcases ha with rfl | ha
      · exact .inl ⟨rfl, rfl, hb.isAbsolute_eq⟩
      · exact .inr ha
  | @dotDot a n b ha hn hb =>
      refine place_congr hroot ?_ ?_ (hb.append_left []) fun front => alike_dotDot front b hn
      · rcases ha with rfl | ha
        · exact .inl ⟨rfl, by rw [isAbsolute_append hn.ne_nil, hn.isAbsolute_eq], hb.isAbsolute_eq⟩
        · exact .inr ha
      · have hend := hb.append_left (n ++ Path.slash :: (Path.dotDot ++ [Path.slash]))
        simpa only [List.append_assoc, List.cons_append, List.nil_append] using hend
  | @top b hb =>
      have hup : Path.root (Path.slash :: (Path.dotDot ++ Path.slash :: b)) = [Path.slash] :=
        root_of_ne rfl (hb.append_left (Path.slash :: (Path.dotDot ++ [Path.slash])))
      have hdown : Path.root (Path.slash :: b) = [Path.slash] := root_of_ne rfl (hb.append_left [Path.slash])
      rw [place_of_isAbsolute (isAbsolute_slash _), place_of_isAbsolute (isAbsolute_slash _), Path.normalize,
        Path.normalize, hup, hdown]
      exact normalizeAt_congr (List.cons_ne_nil _ _) (List.cons_ne_nil _ _) (List.cons_ne_nil _ _) (alike_top b)
  | seen hsingle hf => exact (place_seen_iff hroot hf).mpr hsingle

/-! ## Listed files -/

theorem matchFiles_eq (base : Text) (ds : List Descriptor) (hroot : isAbsolute root) (files : List Text) :
    ∃ log, matchFiles base ds root files = .ok (group ds (files.map (place root)), log) := by
  have hresolved : files.mapM (resolve base root) = .ok (files.map (place root)) := by
    rw [mapM_eq_ok_iff, List.forall₂_map_right_iff, List.forall₂_same]
    exact fun f _ => resolve_eq base hroot f
  rw [matchFiles, hresolved]
  exact ⟨_, rfl⟩

/-- Files that are listed with an absolute root are sorted by kind in normal form. Other files with the same places, in
any order, number and spelling, come to the same, unless the root is doubled: then, and only then, relative files and
their spellings with the root in front come to different places. -/
theorem matchFiles_spellings (base : Text) (ds : List Descriptor) (hroot : isAbsolute root) (files : List Text) :
    ∃ matched log, matchFiles base ds root files = .ok (matched, log) ∧
      Sorts ds (fun p => ∃ f ∈ files, resolve base root f = .ok p) matched ∧
      (∀ k, ∀ p ∈ matched k, IsNormal p) ∧
      (∀ others, (∀ f ∈ files, ∃ g ∈ others, SameFile root f g) → (∀ g ∈ others, ∃ f ∈ files, SameFile root f g) →
        ∃ log', matchFiles base ds root others = .ok (matched, log')) ∧
      ∀ f, StartsName f → (resolve base root f = resolve base root (append root f) ↔ ¬ IsDoubled root) := by
  obtain ⟨log, hmatched⟩ := matchFiles_eq base ds hroot files
  have hsorts : Sorts ds (fun p => ∃ f ∈ files, resolve base root f = .ok p) (group ds (files.map (place root))) :=
    sorts_group fun p => by simp only [List.mem_map, resolve_eq base hroot, Except.ok.injEq]
  refine ⟨_, log, hmatched, hsorts, ?_, ?_, ?_⟩
  · intro k p hp
    obtain ⟨⟨f, -, hf⟩, -⟩ := (hsorts.mem_iff k p).mp hp
    rw [resolve_eq base hroot, Except.ok.injEq] at hf
    exact hf ▸ isNormal_place hroot f
  · intro others hothers hfiles
    obtain ⟨log', hmatched'⟩ := matchFiles_eq base ds hroot others
    refine ⟨log', hmatched'.trans ?_⟩
    have hsame : group ds (others.map (place root)) = group ds (files.map (place root)) := by
      refine group_congr fun p => ?_
      rw [List.mem_map, List.mem_map]
      constructor
      · rintro ⟨g, hg, rfl⟩
        obtain ⟨f, hf, hsame⟩ := hfiles g hg
        exact ⟨f, hf, hsame.place_eq hroot⟩
      · rintro ⟨f, hf, rfl⟩
        obtain ⟨g, hg, hsame⟩ := hothers f hf
        exact ⟨g, hg, (hsame.place_eq hroot).symm⟩
    rw [hsame]
  · intro f hf
    rw [resolve_eq base hroot, resolve_eq base hroot, Except.ok.injEq, place_seen_iff hroot hf]

theorem matchFiles_three_spellings :
    let root : Text := "/r"
    isAbsolute root ∧
      ∃ matched log log', matchFiles "/" Descriptor.defaults root ["x/../a.py", "./a.py", "/r/a.py"] =
        .ok (matched, log) ∧
        matchFiles "/" Descriptor.defaults root ["a.py"] = .ok (matched, log') := by
  intro root
  have hroot : isAbsolute root := rfl
  obtain ⟨matched, log, hmatched, -, -, hothers, -⟩ :=
    matchFiles_spellings "/" Descriptor.defaults hroot ["x/../a.py", "./a.py", "/r/a.py"]
  have hname : StartsName "a.py" := ⟨97, _, rfl, by decide⟩
  have hback : SameFile root "x/../a.py" "a.py" := .dotDot (.inl rfl) (by decide : IsName "x") hname
  have hhere : SameFile root "./a.py" "a.py" := .dot (.inl rfl) hname
  have hspelled : SameFile root "/r/a.py" "a.py" := .symm (.seen (by decide) hname)
  obtain ⟨log', hmatched'⟩ := hothers ["a.py"]
    (by
      intro f hf
      refine ⟨"a.py", List.mem_singleton_self _, ?_⟩
      simp only [List.mem_cons, List.not_mem_nil, or_false] at hf
      rcases hf with rfl | rfl | rfl
      · exact hback
      · exact hhere
      · exact hspelled)
    (by
      intro g hg
      rw [List.mem_singleton.mp hg]
      exact ⟨"./a.py", by simp, hhere⟩)
  exact ⟨hroot, matched, log, log', hmatched, hmatched'⟩

/-- With a doubled root a file and its spelling with the root in front have different places, and both are listed. -/
theorem matchFiles_doubled_root :
    let file : Text := "a.py"
    let spelled : Text := "//a.py"
    let plain : Text := "/a.py"
    let listed (files : List Text) : Option (List Text) :=
      (matchFiles "/" Descriptor.defaults "//" files).toOption.map fun (matched, _) => matched .python
    append "//" file = spelled ∧ listed [file] = some [spelled] ∧ listed [spelled] = some [plain] ∧
      listed [file, spelled] = some [spelled, plain] := by
  decide +kernel

end Discovery

end RuleFlow
