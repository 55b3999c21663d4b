import RuleFlow.Path.Tree
import RuleFlow.Proofs.Keyed
import RuleFlow.Proofs.Path.Names

/-!
# Trees without links

Where there are only files and directories (`Tree.IsPlain`), the way to a place is the names of the place: a path that
is put together from them leads there, and it is canonical as it stands. What a path leads to does not depend on the
order in which the directories hold their entries (`Tree.Agrees`).
-/

namespace RuleFlow.Tree

open RuleFlow.Path (IsName ofNames slash)

variable {t t' : Tree} {e e' : Entry} {entries : List (Text × Entry)} {n p : Text} {place ns : List Text} {w w' : Trail}

/-! ## Entries -/

/-- A name that a directory can have an entry under. -/
@[mk_iff]
structure IsEntryName (n : Text) : Prop extends IsName n where
  zero_notMem : 0 ∉ n
  length_le : n.length ≤ nameLimit

instance (n : Text) : Decidable (IsEntryName n) := decidable_of_iff' _ (isEntryName_iff n)

/-- A file, or a directory with different names for entries that are of this sort in turn. -/
inductive Entry.IsPlain : Entry → Prop where
  | file (content : Text) : IsPlain (.file content)
  | directory {entries : List (Text × Entry)} (names : ∀ x ∈ entries, IsEntryName x.1)
      (distinct : (entries.map Prod.fst).Nodup) (inner : ∀ x ∈ entries, IsPlain x.2) : IsPlain (.directory entries)

/-- There is no link in the tree. -/
def IsPlain (t : Tree) : Prop := (Entry.directory t.root).IsPlain

@[simp] theorem Entry.at?_nil (e : Entry) : e.at? [] = some e := by
  cases e <;> simp [Entry.at?]

theorem Entry.at?_append (e : Entry) (ns ms : List Text) : e.at? (ns ++ ms) = (e.at? ns).bind (·.at? ms) := by
  induction ns generalizing e with
  | nil => simp
  | cons n ns ih => cases e <;> simp [Entry.at?, Option.bind_assoc, ih]

@[simp] theorem Entry.at?_singleton (entries : List (Text × Entry)) (n : Text) :
    (Entry.directory entries).at? [n] = entries.lookup n := by
  simp [Entry.at?]

theorem Entry.at?_singleton_iff :
    e.at? [n] = some e' ↔ ∃ entries, e = .directory entries ∧ entries.lookup n = some e' := by
  cases e <;> simp [Entry.at?]

/-- Inside of an entry without links there is no link. -/
theorem Entry.IsPlain.inside (h : e.IsPlain) (hat : e.at? ns = some e') : (∀ n ∈ ns, IsEntryName n) ∧ e'.IsPlain := by
  induction ns generalizing e with
  | nil =>
      obtain rfl : e = e' := by simpa using hat
      exact ⟨by simp, h⟩
  | cons n ns ih =>
      cases h with
      | file content => simp [Entry.at?] at hat
      | @directory entries hnames hdistinct hinner =>
          obtain ⟨next, hnext, hrest⟩ : ∃ next, entries.lookup n = some next ∧ next.at? ns = some e' := by
            simpa [Entry.at?, Option.bind_eq_some_iff] using hat
          have hmem := (lookup_eq_some_iff_mem hdistinct).mp hnext
          obtain ⟨hothers, hlast⟩ := ih (hinner _ hmem) hrest
          exact ⟨List.forall_mem_cons.mpr ⟨hnames _ hmem, hothers⟩, hlast⟩

theorem entry?_append_iff : t.entry? (place ++ ns) = some e ↔ ∃ e', t.entry? place = some e' ∧ e'.at? ns = some e := by
  unfold entry?
  rw [Entry.at?_append, Option.bind_eq_some_iff]

theorem entry?_concat_iff :
    t.entry? (place ++ [n]) = some e ↔
      ∃ entries, t.entry? place = some (.directory entries) ∧ entries.lookup n = some e := by
  simp only [entry?_append_iff, Entry.at?_singleton_iff]
  constructor
  · rintro ⟨_, hat, entries, rfl, hn⟩
    exact ⟨entries, hat, hn⟩
  · rintro ⟨entries, hat, hn⟩
    exact ⟨_, hat, entries, rfl, hn⟩

theorem IsPlain.isEntryName (h : t.IsPlain) (hat : t.entry? place = some e) : ∀ n ∈ place, IsEntryName n :=
  (Entry.IsPlain.inside h hat).1

theorem IsPlain.isName (h : t.IsPlain) (hat : t.entry? place = some e) : ∀ n ∈ place, IsName n :=
  fun n hn => (h.isEntryName hat n hn).toIsName

theorem IsPlain.entry (h : t.IsPlain) (hat : t.entry? place = some e) : e.IsPlain :=
  (Entry.IsPlain.inside h hat).2

theorem entry?_concat_eq (hat : t.entry? place = some (.directory entries)) (n : Text) :
    t.entry? (place ++ [n]) = entries.lookup n := by
  unfold entry? at hat ⊢
  rw [Entry.at?_append, hat, Option.bind_some, Entry.at?_singleton]

/-- The entries of a directory are those that its names lead to. -/
theorem IsPlain.entry?_concat (h : t.IsPlain) (hat : t.entry? place = some (.directory entries)) :
    t.entry? (place ++ [n]) = some e ↔ (n, e) ∈ entries := by
  cases h.entry hat with
  | directory _ hdistinct _ => rw [entry?_concat_eq hat, lookup_eq_some_iff_mem hdistinct]

theorem IsPlain.entry?_of_mem (h : t.IsPlain) (hat : t.entry? place = some (.directory entries)) :
    ∀ x ∈ entries, t.entry? (place ++ [x.1]) = some x.2 :=
  fun _ hx => (h.entry?_concat hat).mpr hx

/-- Nothing is below a file. -/
theorem eq_nil_of_file {content : Text} (hat : t.entry? place = some (.file content))
    (hbelow : t.entry? (place ++ ns) = some e) :
    ns = [] := by
  cases ns with
  | nil => rfl
  | cons n ns =>
      obtain ⟨e', hat', hbelow⟩ := entry?_append_iff.mp hbelow
      obtain rfl : .file content = e' := Option.some.inj (hat.symm.trans hat')
      simp [Entry.at?] at hbelow

/-- What is below a directory is at or below one of its entries. -/
theorem IsPlain.exists_entry (h : t.IsPlain) (hat : t.entry? place = some (.directory entries))
    (hbelow : t.entry? (place ++ [n] ++ ns) = some e) : ∃ next, (n, next) ∈ entries := by
  obtain ⟨next, hnext, -⟩ := entry?_append_iff.mp hbelow
  exact ⟨next, (h.entry?_concat hat).mp hnext⟩

/-! ## Trails -/

/-- Each entry on the trail is the one under its name in the directory before. -/
def IsOn (t : Tree) (w : Trail) : Prop := ∀ v : Trail, v <:+ w → t.entry? v.place = some (t.entryAt v)

@[simp] theorem Trail.place_nil : Trail.place [] = [] := rfl

@[simp] theorem Trail.place_cons (n : Text) (e : Entry) (w : Trail) : Trail.place ((n, e) :: w) = w.place ++ [n] := by
  simp [Trail.place]

theorem isOn_nil : t.IsOn [] := by
  intro v hv
  obtain rfl := List.suffix_nil.mp hv
  rfl

namespace IsOn

theorem entry?_place (h : t.IsOn w) : t.entry? w.place = some (t.entryAt w) := h w List.suffix_rfl

theorem tail (h : t.IsOn w) : t.IsOn w.tail := fun v hv => h v (hv.trans (List.tail_suffix w))

theorem cons (h : t.IsOn w) (hdir : t.entryAt w = .directory entries) (hn : entries.lookup n = some e) :
    t.IsOn ((n, e) :: w) := by
  intro v hv
  rcases List.suffix_cons_iff.mp hv with rfl | hv
  · rw [Trail.place_cons]
    exact entry?_concat_iff.mpr ⟨entries, hdir ▸ h.entry?_place, hn⟩
  · exact h v hv

theorem walk (h : t.IsOn w) {links : Nat} (hwalk : t.walk links w ns = .ok w') : t.IsOn w' := by
  fun_induction Tree.walk t links w ns with
  | case1 => exact Except.ok.inj hwalk ▸ h
  | case2 links w name rest entries hdir hname ih => exact ih h hwalk
  | case3 links w rest entries hdir hname ih => exact ih h.tail hwalk
  | case7 w name rest entries hdir _ _ _ target hlink links ih =>
      refine ih ?_ hwalk
      split
      · exact isOn_nil
      · exact h
  | case8 links w name rest entries hdir _ _ _ e _ hentry ih => exact ih (h.cons hdir hentry) hwalk
  | case4 | case5 | case6 | case9 => cases hwalk

end IsOn

theorem isOn_of_start (h : t.start p = .ok w) : t.IsOn w := by
  unfold start at h
  split at h
  · exact Except.ok.inj h ▸ isOn_nil
  · exact isOn_nil.walk h

theorem isOn_of_follow (h : t.follow p = .ok w) : t.IsOn w := by
  obtain ⟨q, -, h⟩ := bind_eq_ok_iff.mp h
  obtain ⟨v, hstart, hwalk⟩ := bind_eq_ok_iff.mp h
  exact (isOn_of_start hstart).walk hwalk

/-- What a path leads to is what is at its place. -/
theorem status_of_locate (h : t.locate p = .ok place) : ∃ e, t.status p = .ok e ∧ t.entry? place = some e := by
  unfold locate at h
  cases hfollow : t.follow p with
  | error fault =>
      rw [hfollow] at h
      cases h
  | ok w =>
      rw [hfollow] at h
      cases h
      exact ⟨t.entryAt w, by rw [status, hfollow]; rfl, (isOn_of_follow hfollow).entry?_place⟩

/-- A path leads nowhere if it has no place. -/
theorem status_of_locate_error {fault : Fault} (h : t.locate p = .error fault) : t.status p = .error fault := by
  unfold locate at h
  cases hfollow : t.follow p with
  | error fault =>
      rw [hfollow] at h
      cases h
      rw [status, hfollow]
      rfl
  | ok w =>
      rw [hfollow] at h
      cases h

/-! ## Walking from place to place -/

/-- The content of a file. -/
def Entry.content? : Entry → Option Text
  | .file content => some content
  | _ => none

/-- What is at a place: a file with its content or, without links, a directory. -/
def look? (t : Tree) (place : List Text) : Option (Option Text) := Entry.content? <$> t.entry? place

/-- The place that one name leads to from a directory, where there are no links. -/
def enter (t : Tree) (place : List Text) (name : Text) : Except Fault (List Text) :=
  if t.look? place = some none then
    if name = [] || name = Path.dot then .ok place
    else if name = Path.dotDot then .ok place.dropLast
    else if nameLimit < name.length then .error .tooLong
    else if (t.look? (place ++ [name])).isSome then .ok (place ++ [name])
    else .error .notFound
  else .error .notDirectory

theorem look?_eq_some_none_iff (hplain : t.IsPlain) :
    t.look? place = some none ↔ ∃ entries, t.entry? place = some (.directory entries) := by
  cases hat : t.entry? place with
  | none => simp [look?, hat]
  | some e => cases hplain.entry hat <;> simp [look?, hat, Entry.content?]

theorem look?_eq_some_some_iff {content : Text} :
    t.look? place = some (some content) ↔ t.entry? place = some (.file content) := by
  cases hat : t.entry? place with
  | none => simp [look?, hat]
  | some e => cases e <;> simp [look?, hat, Entry.content?]

theorem Trail.place_tail (w : Trail) : Trail.place w.tail = w.place.dropLast := by
  simp [Trail.place]

/-- One name on the way from the end of a trail. -/
theorem IsOn.enter_place (h : t.IsOn w) (hplain : t.IsPlain) (n : Text) :
    t.enter w.place n =
      match t.entryAt w with
      | .directory entries =>
        if n = [] || n = Path.dot then .ok w.place
        else if n = Path.dotDot then .ok (Trail.place w.tail)
        else if nameLimit < n.length then .error .tooLong
        else if (entries.lookup n).isSome then .ok (w.place ++ [n])
        else .error .notFound
      | _ => .error .notDirectory := by
  have hat := h.entry?_place
  have hinside := hplain.entry hat
  generalize t.entryAt w = e at hat hinside
  cases hinside with
  | file content => simp [enter, look?, hat, Entry.content?]
  | @directory entries =>
      have hdir : t.look? w.place = some none := (look?_eq_some_none_iff hplain).mpr ⟨entries, hat⟩
      have hnext : (t.look? (w.place ++ [n])).isSome = (entries.lookup n).isSome := by
        rw [look?, entry?_concat_eq hat, Option.map_eq_map, Option.isSome_map]
      simp only [enter, hdir, hnext, Trail.place_tail, ↓reduceIte, Bool.or_eq_true, decide_eq_true_eq]

theorem walk_eq_foldlM (hplain : t.IsPlain) (h : t.IsOn w) (links : Nat) :
    Trail.place <$> t.walk links w ns = ns.foldlM t.enter w.place := by
  fun_induction Tree.walk t links w ns with
  | case1 => rfl
  | case2 links w name rest entries hdir hname ih => 
      rw [ih h, List.foldlM_cons, h.enter_place hplain, hdir]
      simp only [hname]
      rfl
  | case3 links w rest entries hdir hname ih =>
      rw [ih h.tail, List.foldlM_cons, h.enter_place hplain, hdir]
      simp only [hname]
      rfl
  | case4 links w name rest entries hdir hname hdotDot hlong =>
      rw [List.foldlM_cons, h.enter_place hplain, hdir]
      simp only [hname, hdotDot, hlong]
      rfl
  | case5 links w name rest entries hdir hname hdotDot hshort hnone =>
      rw [List.foldlM_cons, h.enter_place hplain, hdir]
      simp only [hname, hdotDot, hshort, hnone]
      rfl
  | case6 w name rest entries hdir _ _ _ target hlink | case7 w name rest entries hdir _ _ _ target hlink =>
      -- the link would be an entry of the tree
      cases hplain.entry (h.cons hdir hlink).entry?_place
  | case8 links w name rest entries hdir hname hdotDot hshort e _ hentry ih =>
      rw [ih (h.cons hdir hentry), List.foldlM_cons, h.enter_place hplain, hdir]
      simp only [hname, hdotDot, hshort, hentry, Trail.place_cons]
      rfl
  | case9 links w name rest hfile =>
      rw [List.foldlM_cons, h.enter_place hplain]
      cases hat : t.entryAt w with
      | directory entries => exact absurd hat (hfile entries)
      | file | link => rfl

/-- The place that a path is walked from. -/
def origin (t : Tree) (p : Text) : Except Fault (List Text) :=
  if Path.isAbsolute p then .ok [] else t.workingDirectory.foldlM t.enter []

theorem start_eq_origin (hplain : t.IsPlain) (p : Text) : Trail.place <$> t.start p = t.origin p := by
  unfold start origin
  split
  · rfl
  · exact walk_eq_foldlM hplain isOn_nil linkLimit

theorem locate_eq (hplain : t.IsPlain) (p : Text) :
    t.locate p = (do
      let q ← readPath p
      (steps q).foldlM t.enter (← t.origin q)) := by
  unfold locate follow
  cases readPath p with
  | error fault => rfl
  | ok q =>
      change Trail.place <$> (t.start q >>= fun w => t.walk linkLimit w (steps q)) =
        t.origin q >>= (steps q).foldlM t.enter
      rw [← start_eq_origin hplain]
      cases hstart : t.start q with
      | error fault => rfl
      | ok w => exact walk_eq_foldlM hplain (isOn_of_start hstart) linkLimit

/-! ## Paths of places -/

/-- Names that are there are walked along one by one. -/
theorem foldlM_enter (hplain : t.IsPlain) (hat : t.entry? (place ++ ns) = some e) :
    ns.foldlM t.enter place = .ok (place ++ ns) := by
  induction ns generalizing place with
  | nil => simp [pure, Except.pure]
  | cons n ns ih =>
      rw [List.append_cons] at hat ⊢
      have hn := hplain.isEntryName hat n (by simp)
      obtain ⟨next, hnext, -⟩ := entry?_append_iff.mp hat
      obtain ⟨entries, hdir, -⟩ := entry?_concat_iff.mp hnext
      have henter : t.enter place n = .ok (place ++ [n]) := by
        rw [enter, if_pos ((look?_eq_some_none_iff hplain).mpr ⟨entries, hdir⟩),
          if_neg (by simp [hn.ne_nil, hn.ne_dot]),
          if_neg hn.ne_dotDot, if_neg (not_lt.mpr hn.length_le), look?, hnext]
        rfl
      rw [List.foldlM_cons, henter]
      exact ih hat

/-- The path of a place leads there unless it is too long. -/
theorem locate_ofNames (hplain : t.IsPlain) (hat : t.entry? place = some e) :
    t.locate (ofNames true place) = if pathLimit < (ofNames true place).length then .error .tooLong else .ok place := by
  have hnames := hplain.isName hat
  have hzero : 0 ∉ ofNames true place := Path.zero_notMem_ofNames fun n hn => (hplain.isEntryName hat n hn).zero_notMem
  have hthere : (ofNames true place).isEmpty = false := rfl
  rw [locate_eq hplain, readPath, Text.untilZero_eq hzero, hthere, if_neg Bool.false_ne_true]
  split
  · rfl
  · change (steps (ofNames true place)).foldlM t.enter [] = .ok place
    have hwalk : place.foldlM t.enter [] = .ok ([] ++ place) := foldlM_enter hplain hat
    rw [steps, Path.names_ofNames hnames, Path.endsInSlash_ofNames hnames, List.foldlM_append, hwalk]
    cases place with
    | nil =>
        -- the path of the root ends in a slash and so has an empty name behind it
        have hroot : t.look? [] = some none := (look?_eq_some_none_iff hplain).mpr ⟨t.root, rfl⟩
        simp [bind, Except.bind, pure, Except.pure, enter, hroot]
    | cons n ns => rfl

theorem locate_ofNames_of_le (hplain : t.IsPlain) (hat : t.entry? place = some e)
    (hfits : (ofNames true place).length ≤ pathLimit) :
    t.locate (ofNames true place) = .ok place := by
  rw [locate_ofNames hplain hat, if_neg (not_lt.mpr hfits)]

theorem status_ofNames (hplain : t.IsPlain) (hat : t.entry? place = some e)
    (hfits : (ofNames true place).length ≤ pathLimit) :
    t.status (ofNames true place) = .ok e := by
  obtain ⟨e', hstatus, hat'⟩ := status_of_locate (locate_ofNames_of_le hplain hat hfits)
  rwa [Option.some.inj (hat.symm.trans hat')]

/-- A path that leads somewhere has the path of its place for canonical form. -/
theorem weaklyCanonical_of_locate (h : t.locate p = .ok place) : t.weaklyCanonical p = .ok (ofNames true place) := by
  obtain ⟨e, hstatus, -⟩ := status_of_locate h
  rw [weaklyCanonical, hstatus]
  change (ofNames true ·) <$> t.locate p = _
  rw [h]
  rfl

/-- The path of a place is canonical as it stands unless it is too long. -/
theorem weaklyCanonical_ofNames (hplain : t.IsPlain) (hat : t.entry? place = some e) :
    t.weaklyCanonical (ofNames true place) =
      if pathLimit < (ofNames true place).length then .error .tooLong else .ok (ofNames true place) := by
  have hlocate := locate_ofNames hplain hat
  by_cases hlong : pathLimit < (ofNames true place).length
  · rw [if_pos hlong] at hlocate ⊢
    rw [weaklyCanonical, status_of_locate_error hlocate]
    rfl
  · rw [if_neg hlong] at hlocate ⊢
    exact weaklyCanonical_of_locate hlocate

/-! ## Trees that look alike -/

/-- At every place there is the same: a file with the same content, a directory or nothing. The entries of a directory
may come in another order. -/
structure Agrees (t t' : Tree) : Prop where
  look?_eq : t.look? = t'.look?
  workingDirectory_eq : t.workingDirectory = t'.workingDirectory

namespace Agrees

theorem refl (t : Tree) : Agrees t t := ⟨rfl, rfl⟩

theorem exists_entry (h : Agrees t t') (hat : t'.entry? place = some e') : ∃ e, t.entry? place = some e := by
  have hlook : t.look? place = t'.look? place := congrFun h.look?_eq place
  cases hthere : t.entry? place with
  | some e => exact ⟨e, rfl⟩
  | none => simp [look?, hthere, hat] at hlook

variable (h : Agrees t t') (hplain : t.IsPlain) (hplain' : t'.IsPlain)

include h hplain hplain'

theorem locate_eq (p : Text) : t.locate p = t'.locate p := by
  have henter : t.enter = t'.enter := by
    funext place name
    rw [enter, enter, h.look?_eq]
  rw [Tree.locate_eq hplain, Tree.locate_eq hplain']
  simp only [origin, henter, h.workingDirectory_eq]

theorem existing_eq (found : Text) (elements : List Text) : t.existing found elements = t'.existing found elements := by
  induction elements generalizing found with
  | nil => rfl
  | cons e elements ih =>
      rw [existing, existing]
      cases hlocate : t.locate (Path.append found e) with
      | ok place =>
          obtain ⟨_, hstatus, -⟩ := status_of_locate hlocate
          obtain ⟨_, hstatus', -⟩ := status_of_locate (h.locate_eq hplain hplain' _ ▸ hlocate)
          rw [hstatus, hstatus']
          exact ih _
      | error fault =>
          rw [status_of_locate_error hlocate, status_of_locate_error (h.locate_eq hplain hplain' _ ▸ hlocate)]

theorem weaklyCanonical_eq (p : Text) : t.weaklyCanonical p = t'.weaklyCanonical p := by
  have hlocate' := h.locate_eq hplain hplain' p
  cases hlocate : t.locate p with
  | ok place => rw [weaklyCanonical_of_locate hlocate, weaklyCanonical_of_locate (hlocate' ▸ hlocate)]
  | error fault =>
      have hcanonical : t.canonical = t'.canonical := by
        funext q
        rw [canonical, canonical, h.locate_eq hplain hplain' q]
      rw [weaklyCanonical, weaklyCanonical, status_of_locate_error hlocate, status_of_locate_error (hlocate' ▸ hlocate)]
      simp only [h.existing_eq hplain hplain', hcanonical]

end Agrees

end RuleFlow.Tree
