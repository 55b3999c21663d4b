import RuleFlow.Proofs.Discovery
import RuleFlow.Proofs.Path.Tree

/-!
# Searching for files

Where there are no links, a search finds what a filter leaves of the files below its root: those that no ignored path
holds. Passing over an ignored directory loses nothing, since what an ignored path holds it holds with all that is
inside.
-/

namespace RuleFlow.Discovery

open RuleFlow.Path (ofNames)
open RuleFlow.Tree (Entry IsPlain)

variable {t t' : Tree} {ds : List Parser.Descriptor} {ignored : List Text} {e : Entry} {es : List (Text × Entry)}
  {i p root : Text} {place top rest : List Text} {files : List Text}

/-! ## Ignored paths -/

/-- The path is that of `i` in canonical form or goes on from it, element by element. -/
def Ignores (t : Tree) (i p : Text) : Prop :=
  i ≠ [] ∧ ∃ c, t.weaklyCanonical i = .ok c ∧ Path.elements c <+: Path.elements p

theorem ignores_iff {c : Text} (hi : i ≠ []) (hc : t.weaklyCanonical i = .ok c) :
    Ignores t i p ↔ Path.isWithin p c := by
  simp [Ignores, hi, hc, Path.isWithin_iff]

/-- A path that leads to a place holds the places below it and no others. -/
theorem ignores_iff_prefix (hplain : t.IsPlain) (hi : t.locate i = .ok top) (hat : t.entry? place = some e) :
    Ignores t i (ofNames true place) ↔ top <+: place := by
  obtain ⟨_, -, htop⟩ := Tree.status_of_locate hi
  have hne : i ≠ [] := by
    rintro rfl
    cases hi
  rw [ignores_iff hne (Tree.weaklyCanonical_of_locate hi), Path.isWithin_iff,
    Path.elements_prefix_iff (hplain.isName htop) (hplain.isName hat)]

/-- What an ignored path holds it holds with all that is inside. -/
theorem Ignores.inside (h : Ignores t i (ofNames true place)) (hplain : t.IsPlain)
    (hat : t.entry? (place ++ rest) = some e) :
    Ignores t i (ofNames true (place ++ rest)) := by
  have hnames := hplain.isName hat
  obtain ⟨hne, c, hc, hprefix⟩ := h
  refine ⟨hne, c, hc, hprefix.trans ?_⟩
  exact (Path.elements_prefix_iff (fun n hn => hnames n (List.mem_append_left _ hn)) hnames).mpr
    (List.prefix_append _ _)

theorem canonical_eq_ok_iff {c : Text} : canonical t p = .ok c ↔ t.weaklyCanonical p = .ok c := by
  unfold canonical
  cases t.weaklyCanonical p <;> simp

/-- The path of a place that has a canonical form is that form. -/
theorem eq_of_canonical_ofNames (hplain : t.IsPlain) (hat : t.entry? place = some e) {c : Text}
    (hc : canonical t (ofNames true place) = .ok c) : c = ofNames true place := by
  rw [canonical_eq_ok_iff, Tree.weaklyCanonical_ofNames hplain hat] at hc
  split at hc
  · cases hc
  · exact (Except.ok.inj hc).symm

theorem isIgnored_iff (hplain : t.IsPlain) (hat : t.entry? place = some e) {b : Bool}
    (h : isIgnored t (ofNames true place) ignored = .ok b) : b ↔ ∃ i ∈ ignored, Ignores t i (ofNames true place) := by
  induction ignored with
  | nil =>
      obtain rfl : false = b := Except.ok.inj h
      simp
  | cons i ignored ih =>
      rw [List.exists_mem_cons_iff]
      unfold isIgnored at h
      split at h
      · rename_i hempty
        rw [ih h, or_iff_right]
        exact fun hi => hi.1 (List.isEmpty_iff.mp hempty)
      · rename_i hne
        obtain ⟨c, hc, h⟩ := bind_eq_ok_iff.mp h
        obtain ⟨own, hown, h⟩ := bind_eq_ok_iff.mp h
        obtain rfl := eq_of_canonical_ofNames hplain hat hown
        rw [ignores_iff (fun hi => hne (List.isEmpty_iff.mpr hi)) (canonical_eq_ok_iff.mp hc)]
        split at h
        · rename_i hwithin
          obtain rfl : true = b := Except.ok.inj h
          exact iff_of_true rfl (.inl hwithin)
        · rename_i houtside
          rw [ih h, or_iff_right houtside]

theorem exists_isIgnored (hplain : t.IsPlain) (hat : t.entry? place = some e)
    (hfits : (ofNames true place).length ≤ Tree.pathLimit)
    (hignored : ∀ i ∈ ignored, ∃ c, t.weaklyCanonical i = .ok c) :
    ∃ b, isIgnored t (ofNames true place) ignored = .ok b := by
  have hown : canonical t (ofNames true place) = .ok (ofNames true place) := by
    rw [canonical_eq_ok_iff, Tree.weaklyCanonical_ofNames hplain hat, if_neg (by simpa using hfits)]
  induction ignored with
  | nil => exact ⟨false, rfl⟩
  | cons i ignored ih =>
      obtain ⟨⟨c, hc⟩, hothers⟩ := List.forall_mem_cons.mp hignored
      obtain ⟨b, hb⟩ := ih hothers
      have houter := canonical_eq_ok_iff.mpr hc
      unfold isIgnored
      split
      · exact ⟨b, hb⟩
      · simp only [houter, hown, bind, Except.bind, pure, Except.pure]
        split
        · exact ⟨true, rfl⟩
        · exact ⟨b, hb⟩

/-! ## Walking through directories -/

/-- The path of a file at or below a place that no ignored path holds. -/
def IsFound (t : Tree) (ignored : List Text) (top : List Text) (p : Text) : Prop :=
  ∃ rest content, t.entry? (top ++ rest) = some (.file content) ∧ p = ofNames true (top ++ rest) ∧
    ∀ i ∈ ignored, ¬ Ignores t i p

theorem isFound_file {content : Text} (hat : t.entry? place = some (.file content)) :
    IsFound t ignored place p ↔ p = ofNames true place ∧ ∀ i ∈ ignored, ¬ Ignores t i p := by
  constructor
  · rintro ⟨rest, content', hrest, rfl, hkept⟩
    obtain rfl := Tree.eq_nil_of_file hat hrest
    exact ⟨by rw [List.append_nil], hkept⟩
  · rintro ⟨rfl, hkept⟩
    exact ⟨[], content, by rwa [List.append_nil], by rw [List.append_nil], hkept⟩

/-- A file below a directory is at or below one of the entries. -/
theorem isFound_directory (hplain : t.IsPlain) (hat : t.entry? place = some (.directory es)) :
    IsFound t ignored place p ↔ ∃ x ∈ es, IsFound t ignored (place ++ [x.1]) p := by
  constructor
  · rintro ⟨rest, content, hrest, rfl, hkept⟩
    cases rest with
    | nil =>
        rw [List.append_nil, hat] at hrest
        cases hrest
    | cons n rest =>
        rw [List.append_cons] at hrest hkept ⊢
        obtain ⟨next, hnext⟩ := hplain.exists_entry hat hrest
        exact ⟨(n, next), hnext, rest, content, hrest, rfl, hkept⟩
  · rintro ⟨x, -, rest, content, hrest, rfl, hkept⟩
    rw [← List.append_cons] at hrest hkept ⊢
    exact ⟨x.1 :: rest, content, hrest, rfl, hkept⟩

theorem append_entry (hplain : t.IsPlain) {n : Text} (hat : t.entry? (place ++ [n]) = some e) :
    Path.append (ofNames true place) n = ofNames true (place ++ [n]) := by
  have hnames := hplain.isName hat
  exact Path.append_ofNames (fun m hm => hnames m (List.mem_append_left _ hm)) (hnames n (by simp))

/-- Nothing is found at or below what is ignored. -/
theorem not_isFound_of_ignores (hplain : t.IsPlain) (h : ∃ i ∈ ignored, Ignores t i (ofNames true place)) :
    ¬ IsFound t ignored place p := by
  obtain ⟨i, hi, hheld⟩ := h
  rintro ⟨rest, content, hrest, rfl, hkept⟩
  exact hkept i hi (hheld.inside hplain hrest)

-- By induction on the entry; the place says where in the tree it is, since ignored paths are resolved in the whole
-- tree.
mutual
theorem mem_filesAt (hplain : t.IsPlain) (p : Text) : (e : Entry) → ∀ {place files}, t.entry? place = some e →
    filesAt t ignored (ofNames true place) e = .ok files → (p ∈ files ↔ IsFound t ignored place p)
  | .file content, place, files, hat, h => by
      obtain ⟨b, hb, hfiles⟩ := bind_eq_ok_iff.mp h
      obtain rfl := Except.ok.inj hfiles
      have hignored := isIgnored_iff hplain hat hb
      cases b with
      | true => exact iff_of_false List.not_mem_nil (not_isFound_of_ignores hplain (hignored.mp rfl))
      | false =>
          have hkept : ∀ i ∈ ignored, ¬ Ignores t i (ofNames true place) := by simpa using hignored
          rw [isFound_file hat]
          change p ∈ [ofNames true place] ↔ _
          rw [List.mem_singleton, iff_self_and]
          rintro rfl
          exact hkept
  | .link target, place, files, hat, h => by cases hplain.entry hat
  | .directory entries, place, files, hat, h => by
      obtain ⟨b, hb, hfiles⟩ := bind_eq_ok_iff.mp h
      cases b with
      | true =>
          obtain rfl := Except.ok.inj hfiles
          exact iff_of_false List.not_mem_nil (not_isFound_of_ignores hplain ((isIgnored_iff hplain hat hb).mp rfl))
      | false =>
          rw [isFound_directory hplain hat]
          exact mem_filesIn hplain p entries (hplain.entry?_of_mem hat) hfiles

theorem mem_filesIn (hplain : t.IsPlain) (p : Text) : (entries : List (Text × Entry)) → ∀ {place files},
    (∀ x ∈ entries, t.entry? (place ++ [x.1]) = some x.2) → filesIn t ignored (ofNames true place) entries = .ok files →
      (p ∈ files ↔ ∃ x ∈ entries, IsFound t ignored (place ++ [x.1]) p)
  | [], place, files, hat, h => by
      obtain rfl := Except.ok.inj h
      simp
  | (name, entry) :: rest, place, files, hat, h => by
      obtain ⟨hfirst, hothers⟩ := List.forall_mem_cons.mp hat
      obtain ⟨here, hhere, h⟩ := bind_eq_ok_iff.mp h
      obtain ⟨after, hafter, hfiles⟩ := bind_eq_ok_iff.mp h
      obtain rfl := Except.ok.inj hfiles
      rw [append_entry hplain hfirst] at hhere
      rw [List.mem_append, List.exists_mem_cons_iff, mem_filesAt hplain p entry hfirst hhere,
        mem_filesIn hplain p rest hothers hafter]
end

/-- The paths at and below a place are not too long to be looked at. -/
def Reaches (t : Tree) (place : List Text) : Prop :=
  ∀ rest e, t.entry? (place ++ rest) = some e → (ofNames true (place ++ rest)).length ≤ Tree.pathLimit

theorem Reaches.inside (h : Reaches t place) (ns : List Text) : Reaches t (place ++ ns) := by
  intro rest e hrest
  rw [List.append_assoc] at hrest ⊢
  exact h (ns ++ rest) e hrest

theorem Reaches.here (h : Reaches t place) (hat : t.entry? place = some e) :
    (ofNames true place).length ≤ Tree.pathLimit := by
  simpa [hat] using h [] e

theorem reaches_of_file {content : Text} (hat : t.entry? place = some (.file content))
    (hfits : (ofNames true place).length ≤ Tree.pathLimit) : Reaches t place := by
  intro rest e hrest
  obtain rfl := Tree.eq_nil_of_file hat hrest
  rwa [List.append_nil]

theorem reaches_of_directory (hplain : t.IsPlain) (hat : t.entry? place = some (.directory es))
    (hfits : (ofNames true place).length ≤ Tree.pathLimit) (hall : ∀ x ∈ es, Reaches t (place ++ [x.1])) :
    Reaches t place := by
  intro rest e hrest
  cases rest with
  | nil => rwa [List.append_nil]
  | cons n rest =>
      rw [List.append_cons] at hrest ⊢
      obtain ⟨next, hnext⟩ := hplain.exists_entry hat hrest
      exact hall _ hnext rest e hrest

mutual
theorem exists_filesAt (hplain : t.IsPlain) (hignored : ∀ i ∈ ignored, ∃ c, t.weaklyCanonical i = .ok c) :
    (e : Entry) → ∀ {place}, t.entry? place = some e → Reaches t place →
      ∃ files, filesAt t ignored (ofNames true place) e = .ok files
  | .file content, place, hat, hreaches => by
      obtain ⟨b, hb⟩ := exists_isIgnored hplain hat (hreaches.here hat) hignored
      exact ⟨_, by rw [filesAt, hb]; rfl⟩
  | .link target, place, hat, hreaches => by cases hplain.entry hat
  | .directory entries, place, hat, hreaches => by
      obtain ⟨b, hb⟩ := exists_isIgnored hplain hat (hreaches.here hat) hignored
      obtain ⟨files, hfiles⟩ := exists_filesIn hplain hignored entries (hplain.entry?_of_mem hat) hreaches
      rw [filesAt, hb]
      cases b with
      | true => exact ⟨[], rfl⟩
      | false => exact ⟨files, hfiles⟩

theorem exists_filesIn (hplain : t.IsPlain) (hignored : ∀ i ∈ ignored, ∃ c, t.weaklyCanonical i = .ok c) :
    (entries : List (Text × Entry)) → ∀ {place}, (∀ x ∈ entries, t.entry? (place ++ [x.1]) = some x.2) →
      Reaches t place →
      ∃ files, filesIn t ignored (ofNames true place) entries = .ok files
  | [], place, hat, hreaches => ⟨[], rfl⟩
  | (name, entry) :: rest, place, hat, hreaches => by
      obtain ⟨hfirst, hothers⟩ := List.forall_mem_cons.mp hat
      obtain ⟨here, hhere⟩ := exists_filesAt hplain hignored entry hfirst (hreaches.inside [name])
      obtain ⟨after, hafter⟩ := exists_filesIn hplain hignored rest hothers hreaches
      exact ⟨here ++ after, by rw [filesIn, append_entry hplain hfirst, hhere, hafter]; rfl⟩
end

/-! ## The search -/

theorem resolveRoot_eq (hroot : t.locate root = .ok top) :
    resolveRoot t root =
      if t.isDirectory (ofNames true top) then .ok (ofNames true top)
      else .error (.notDirectory (ofNames true top)) := by
  cases root with
  | nil => cases hroot
  | cons b root =>
      rw [resolveRoot, Tree.weaklyCanonical_of_locate hroot]
      rfl

/-- A search walks through the entries of its root, if the path of the root is not too long. -/
theorem discover_eq (hplain : t.IsPlain) (ds : List Parser.Descriptor) (ignored : List Text)
    (hroot : t.locate root = .ok top)
    (hat : t.entry? top = some (.directory es)) :
    discover t ds ignored root =
      if Tree.pathLimit < (ofNames true top).length then .error (.notDirectory (ofNames true top))
      else do
        let files := group ds ((← filesIn t ignored (ofNames true top) es).map t.absolute)
        return (files, entries (ofNames true top) files) := by
  have hlocate := Tree.locate_ofNames hplain hat
  split
  · rename_i hlong
    rw [if_pos hlong] at hlocate
    have hdirectory : t.isDirectory (ofNames true top) = false := by
      rw [Tree.isDirectory, Tree.status_of_locate_error hlocate]
    rw [discover, resolveRoot_eq hroot, hdirectory]
    rfl
  · rename_i hfits
    have hstatus := Tree.status_ofNames hplain hat (not_lt.mp hfits)
    have hdirectory : t.isDirectory (ofNames true top) := by
      rw [Tree.isDirectory, hstatus]
    rw [discover, resolveRoot_eq hroot, if_pos hdirectory]
    change (filesBelow t ignored (ofNames true top) >>= _) = _
    rw [filesBelow, hstatus]

/-- The walk through the entries of a directory comes upon the files that are to be found. -/
theorem mem_walked_iff (hplain : t.IsPlain) (hat : t.entry? top = some (.directory es)) {walked : List Text}
    (h : filesIn t ignored (ofNames true top) es = .ok walked) :
    p ∈ walked.map t.absolute ↔ IsFound t ignored top p := by
  have hmem : ∀ q, q ∈ walked ↔ IsFound t ignored top q := by
    intro q
    rw [isFound_directory hplain hat]
    exact mem_filesIn hplain q es (hplain.entry?_of_mem hat) h
  have habsolute : walked.map t.absolute = walked := by
    rw [← List.map_id walked, List.map_map]
    refine List.map_congr_left fun q hq => ?_
    obtain ⟨rest, content, -, rfl, -⟩ := (hmem q).mp hq
    rfl
  rw [habsolute, hmem]

theorem discover_ok (hplain : t.IsPlain) (hroot : t.locate root = .ok top) (hat : t.entry? top = some (.directory es))
    {result : Parser.FilesByKind × List Log.Entry} (h : discover t ds ignored root = .ok result) :
    ∃ walked, (∀ p, p ∈ walked ↔ IsFound t ignored top p) ∧
      result = (group ds walked, entries (ofNames true top) (group ds walked)) := by
  rw [discover_eq hplain ds ignored hroot hat] at h
  split at h
  · cases h
  · obtain ⟨walked, hwalked, h⟩ := bind_eq_ok_iff.mp h
    exact ⟨_, fun p => mem_walked_iff hplain hat hwalked, (Except.ok.inj h).symm⟩

theorem exists_discover (hplain : t.IsPlain) (ds : List Parser.Descriptor) (hroot : t.locate root = .ok top)
    (hat : t.entry? top = some (.directory es)) (hreaches : Reaches t top)
    (hignored : ∀ i ∈ ignored, ∃ c, t.weaklyCanonical i = .ok c) :
    ∃ result, discover t ds ignored root = .ok result := by
  obtain ⟨walked, hwalked⟩ := exists_filesIn hplain hignored es (hplain.entry?_of_mem hat) hreaches
  rw [discover_eq hplain ds ignored hroot hat, if_neg (not_lt.mpr (hreaches.here hat)), hwalked]
  exact ⟨_, rfl⟩

section Agreement

variable (h : t.Agrees t')

theorem Reaches.agrees (hreaches : Reaches t place) (h : t.Agrees t') : Reaches t' place := by
  intro rest e' hrest
  obtain ⟨e, hthere⟩ := h.exists_entry hrest
  exact hreaches rest e hthere

variable (hplain : t.IsPlain) (hplain' : t'.IsPlain)

include h hplain hplain'

theorem isFound_agrees (ignored top : List Text) (p : Text) : IsFound t ignored top p ↔ IsFound t' ignored top p := by
  simp only [IsFound, Ignores, ← Tree.look?_eq_some_some_iff, h.look?_eq, h.weaklyCanonical_eq hplain hplain']

theorem root_agrees (hroot : t.locate root = .ok top) (hat : t.entry? top = some (.directory es)) :
    t'.locate root = .ok top ∧ ∃ es', t'.entry? top = some (.directory es') := by
  refine ⟨h.locate_eq hplain hplain' root ▸ hroot, ?_⟩
  rw [← Tree.look?_eq_some_none_iff hplain', ← h.look?_eq, Tree.look?_eq_some_none_iff hplain]
  exact ⟨es, hat⟩

/-- A search has the same result in a tree that looks alike. -/
theorem discover_agrees (hroot : t.locate root = .ok top) (hat : t.entry? top = some (.directory es))
    {result result' : Parser.FilesByKind × List Log.Entry} (hresult : discover t ds ignored root = .ok result)
    (hresult' : discover t' ds ignored root = .ok result') : result = result' := by
  obtain ⟨hroot', es', hat'⟩ := root_agrees h hplain hplain' hroot hat
  obtain ⟨walked, hwalked, rfl⟩ := discover_ok hplain hroot hat hresult
  obtain ⟨walked', hwalked', rfl⟩ := discover_ok hplain' hroot' hat' hresult'
  have hgroups : group ds walked = group ds walked' := by
    refine group_congr fun p => ?_
    rw [hwalked, hwalked', isFound_agrees h hplain hplain']
  rw [hgroups]

end Agreement

/-- Below a directory of a tree without links, a search that succeeds has found for each kind exactly the regular files
that fit it and that no ignored path holds. It succeeds, with the same result for any order of the entries in the
directories, if no path below the directory is too long and the ignored paths can be resolved. An ignored path that
leads to a place holds the places below it, name by name, and no others. -/
theorem discover_files (hplain : t.IsPlain) (ds : List Parser.Descriptor) (ignored : List Text)
    (hroot : t.locate root = .ok top)
    (hat : t.entry? top = some (.directory es)) :
    (∀ files log, discover t ds ignored root = .ok (files, log) → Sorts ds (IsFound t ignored top) files) ∧
      (Reaches t top → (∀ i ∈ ignored, ∃ c, t.weaklyCanonical i = .ok c) →
        ∃ result, ∀ t' : Tree, t'.IsPlain → t.Agrees t' → discover t' ds ignored root = .ok result) ∧
      ∀ i held, t.locate i = .ok held → ∀ place e, t.entry? place = some e →
        (Ignores t i (ofNames true place) ↔ held <+: place) := by
  refine ⟨fun files log h => ?_, fun hreaches hignored => ?_, fun i held hi place e => ignores_iff_prefix hplain hi⟩
  · obtain ⟨walked, hwalked, hresult⟩ := discover_ok hplain hroot hat h
    cases hresult
    exact sorts_group hwalked
  · obtain ⟨result, hresult⟩ := exists_discover hplain ds hroot hat hreaches hignored
    refine ⟨result, fun t' hplain' hagrees => ?_⟩
    obtain ⟨hroot', es', hat'⟩ := root_agrees hagrees hplain hplain' hroot hat
    have hignored' : ∀ i ∈ ignored, ∃ c, t'.weaklyCanonical i = .ok c := by
      simpa only [hagrees.weaklyCanonical_eq hplain hplain'] using hignored
    obtain ⟨result', hresult'⟩ := exists_discover hplain' ds hroot' hat' (hreaches.agrees hagrees) hignored'
    rw [hresult', discover_agrees hagrees hplain hplain' hroot hat hresult hresult']

/-- A directory `vendor` with a file and, beside it, one whose name begins alike. -/
def vendors : Tree :=
  ⟨[("vendor", .directory [("x.py", .file [])]), ("vendor2", .directory [("y.py", .file [])])], []⟩

theorem vendors_isPlain : vendors.IsPlain := by
  have hvendor : Entry.IsPlain (.directory [("x.py", .file [])]) :=
    .directory (by decide) (by decide) fun x hx => List.mem_singleton.mp hx ▸ .file []
  have hvendor2 : Entry.IsPlain (.directory [("y.py", .file [])]) :=
    .directory (by decide) (by decide) fun x hx => List.mem_singleton.mp hx ▸ .file []
  refine .directory (by decide) (by decide) fun x hx => ?_
  simp only [vendors, List.mem_cons, List.not_mem_nil, or_false] at hx
  rcases hx with rfl | rfl
  · exact hvendor
  · exact hvendor2

theorem reaches_vendors : Reaches vendors [] := by
  have hvendor : Reaches vendors ["vendor"] :=
    reaches_of_directory vendors_isPlain rfl (by decide) fun x hx =>
      List.mem_singleton.mp hx ▸ reaches_of_file rfl (by decide)
  have hvendor2 : Reaches vendors ["vendor2"] :=
    reaches_of_directory vendors_isPlain rfl (by decide) fun x hx =>
      List.mem_singleton.mp hx ▸ reaches_of_file rfl (by decide)
  refine reaches_of_directory vendors_isPlain rfl (by decide) fun x hx => ?_
  simp only [vendors, List.mem_cons, List.not_mem_nil, or_false] at hx
  rcases hx with rfl | rfl
  · exact hvendor
  · exact hvendor2

theorem discover_files_beside_ignored :
    let ignored : Text := "/vendor"
    let inside : Text := "/vendor/x.py"
    let beside : Text := "/vendor2/y.py"
    vendors.IsPlain ∧ vendors.locate "/" = .ok [] ∧ (∃ es, vendors.entry? [] = some (.directory es)) ∧
      ∃ files log, discover vendors Parser.Descriptor.defaults [ignored] "/" = .ok (files, log) ∧
        inside ∉ files .python ∧ beside ∈ files .python := by
  intro ignored inside beside
  have hroot : vendors.locate (ofNames true []) = .ok [] := Tree.locate_ofNames_of_le vendors_isPlain rfl (by decide)
  have hignored : vendors.locate (ofNames true ["vendor"]) = .ok ["vendor"] :=
    Tree.locate_ofNames_of_le vendors_isPlain rfl (by decide)
  obtain ⟨hsorts, hexists, hheld⟩ := discover_files vendors_isPlain Parser.Descriptor.defaults [ignored] hroot rfl
  obtain ⟨⟨files, log⟩, hresult⟩ :=
    hexists reaches_vendors (List.forall_mem_singleton.mpr ⟨_, Tree.weaklyCanonical_of_locate hignored⟩)
  have hfiles := hresult vendors vendors_isPlain (.refl _)
  have hpython := fun p => (hsorts files log hfiles).mem_iff .python p
  have hinside : Ignores vendors ignored inside := (hheld ignored _ hignored ["vendor", "x.py"] _ rfl).mpr (by decide)
  have hbeside : ¬ Ignores vendors ignored beside :=
    (hheld ignored _ hignored ["vendor2", "y.py"] _ rfl).not.mpr (by decide)
  refine ⟨vendors_isPlain, hroot, ⟨_, rfl⟩, files, log, hfiles, ?_, ?_⟩
  · rw [hpython]
    rintro ⟨⟨rest, content, -, -, hkept⟩, -⟩
    exact hkept ignored (List.mem_singleton_self _) hinside
  · rw [hpython]
    exact ⟨⟨["vendor2", "y.py"], [], rfl, rfl, List.forall_mem_singleton.mpr hbeside⟩, belongsTo_iff.mp (by decide)⟩

end RuleFlow.Discovery
