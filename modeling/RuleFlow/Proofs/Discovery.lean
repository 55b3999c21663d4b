import RuleFlow.Discovery
import RuleFlow.Proofs.Parser.Registry

/-!
# Files by kind

The files of a kind are those whose name fits, each listed once. A kind without a descriptor has no file.
-/

namespace RuleFlow

/-! ## Texts in order -/

namespace Text

theorem mem_foldl_insert {ts : List Text} {m : Map Unit} {t : Text} :
    t ∈ ts.foldl (fun m t => m.insert t ()) m ↔ t ∈ m ∨ t ∈ ts := by
  induction ts generalizing m with
  | nil => simp
  | cons u ts ih =>
      rw [List.foldl_cons, ih, Std.ExtTreeMap.mem_insert, Std.LawfulEqCmp.compare_eq_iff_eq, List.mem_cons]
      constructor
      · rintro ((rfl | ht) | ht)
        · exact .inr (.inl rfl)
        · exact .inl ht
        · exact .inr (.inr ht)
      · rintro (ht | rfl | ht)
        · exact .inl (.inr ht)
        · exact .inl (.inl rfl)
        · exact .inr ht

theorem mem_sortUnique {ts : List Text} {t : Text} : t ∈ sortUnique ts ↔ t ∈ ts := by
  rw [sortUnique, Std.ExtTreeMap.mem_keys, mem_foldl_insert]
  simp

theorem nodup_sortUnique (ts : List Text) : (sortUnique ts).Nodup :=
  Std.ExtTreeMap.nodup_keys

theorem pairwise_sortUnique (ts : List Text) : (sortUnique ts).Pairwise fun a b => order a b = .lt :=
  Std.ExtTreeMap.ordered_keys

theorem sortUnique_congr {ts us : List Text} (h : ∀ t, t ∈ ts ↔ t ∈ us) : sortUnique ts = sortUnique us := by
  have hmaps : ts.foldl (fun m t => m.insert t ()) (∅ : Map Unit) = us.foldl (fun m t => m.insert t ()) ∅ := by
    refine Std.ExtTreeMap.ext_mem_unit fun t => ?_
    rw [mem_foldl_insert, mem_foldl_insert, h]
  rw [sortUnique, sortUnique, hmaps]

end Text

open RuleFlow.Parser (Kind Descriptor Registry FilesByKind)

/-! ## Kinds with files -/

namespace Parser.FilesByKind

/-- The kind has a file. -/
def has (files : FilesByKind) (k : Kind) : Bool := !(files k).isEmpty

theorem has_iff {files : FilesByKind} {k : Kind} : files.has k ↔ ∃ file, file ∈ files k := by
  cases h : files k with
  | nil => simp [has, h]
  | cons file rest => exact ⟨fun _ => ⟨file, List.mem_cons_self⟩, fun _ => by simp [has, h]⟩

theorem mem_kinds {files : FilesByKind} {k : Kind} : k ∈ files.kinds ↔ ∃ file, file ∈ files k := by
  rw [← has_iff]
  exact List.mem_filter.trans (and_iff_right k.mem_all)

theorem kinds_eq_nil {files : FilesByKind} (hnone : ∀ k, files k = []) : files.kinds = [] := by
  rw [List.eq_nil_iff_forall_not_mem]
  intro k hk
  obtain ⟨file, hfile⟩ := mem_kinds.mp hk
  rw [hnone k] at hfile
  cases hfile

theorem nodup_kinds (files : FilesByKind) : files.kinds.Nodup :=
  Kind.nodup_all.filter _

end Parser.FilesByKind

namespace Discovery

variable {registry : Registry} {ds : List Descriptor} {files : List Text} {k : Kind} {file : Text}

/-! ## Grouping by kind -/

theorem nodup_group (ds : List Descriptor) (files : List Text) (k : Kind) : (group ds files k).Nodup :=
  Text.nodup_sortUnique _

theorem mem_group : file ∈ group ds files k ↔ file ∈ files ∧ belongsTo ds k file := by
  rw [group, Text.mem_sortUnique, List.mem_filter]

theorem group_congr {others : List Text} (h : ∀ p, p ∈ files ↔ p ∈ others) : group ds files = group ds others := by
  funext k
  refine Text.sortUnique_congr fun p => ?_
  rw [List.mem_filter, List.mem_filter, h]

/-- The name of the file fits a pattern of a descriptor of the kind. -/
def Fits (ds : List Descriptor) (k : Kind) (file : Text) : Prop :=
  ∃ d ∈ ds, d.kind = k ∧ ∃ pattern ∈ d.patterns, Wildcard.fits (Path.fileName file) pattern

theorem belongsTo_iff : belongsTo ds k file ↔ Fits ds k file := by
  simp only [belongsTo, Wildcard.fitsAny, List.any_eq_true, Bool.and_eq_true, decide_eq_true_eq, Fits]

/-- For each kind the files hold exactly the paths of some sort that fit the kind, in byte order and each once. A kind
that no such path fits has no entry. -/
structure Sorts (ds : List Descriptor) (paths : Text → Prop) (files : FilesByKind) : Prop where
  increasing : ∀ k, (files k).Pairwise fun a b => Text.order a b = .lt
  mem_iff : ∀ k p, p ∈ files k ↔ paths p ∧ Fits ds k p
  mem_kinds_iff : ∀ k, k ∈ files.kinds ↔ ∃ p, paths p ∧ Fits ds k p

theorem sorts_group {paths : Text → Prop} (h : ∀ p, p ∈ files ↔ paths p) : Sorts ds paths (group ds files) where
  increasing _ := Text.pairwise_sortUnique _
  mem_iff k p := by rw [mem_group, belongsTo_iff, h]
  mem_kinds_iff k := by simp only [FilesByKind.mem_kinds, mem_group, belongsTo_iff, h]

/-- Only a kind with a descriptor has files. -/
theorem descriptor_of_mem_group (hkeyed : registry.Keyed) (h : file ∈ group registry.descriptors files k) :
    (registry.descriptor? k).isSome := by
  obtain ⟨d, hd, hfits⟩ := List.any_eq_true.mp (mem_group.mp h).2
  obtain ⟨kind, -, hkind⟩ := List.mem_filterMap.mp hd
  rw [Bool.and_eq_true, decide_eq_true_eq] at hfits
  obtain rfl : kind = k := (hkeyed kind d hkind).symm.trans hfits.1
  rw [hkind, Option.isSome_some]

/-! ## Files as listed -/

theorem matchFiles_ok {base root : Text} {matched : FilesByKind} {entries : List Log.Entry}
    (h : matchFiles base ds root files = .ok (matched, entries)) :
    ∃ resolved, files.mapM (resolve base root) = .ok resolved ∧ matched = group ds resolved := by
  unfold matchFiles at h
  cases hresolved : files.mapM (resolve base root) with
  | error fault =>
      rw [hresolved] at h
      cases h
  | ok resolved =>
      rw [hresolved] at h
      cases h
      exact ⟨resolved, rfl, rfl⟩

theorem nodup_of_matchFiles {base root : Text} {matched : FilesByKind} {entries : List Log.Entry}
    (h : matchFiles base ds root files = .ok (matched, entries)) (k : Kind) : (matched k).Nodup := by
  obtain ⟨resolved, -, rfl⟩ := matchFiles_ok h
  exact nodup_group ds resolved k

theorem descriptor_of_mem_matchFiles (hkeyed : registry.Keyed) {base root : Text} {matched : FilesByKind}
    {entries : List Log.Entry} (h : matchFiles base registry.descriptors root files = .ok (matched, entries))
    (hfile : file ∈ matched k) : (registry.descriptor? k).isSome := by
  obtain ⟨resolved, -, rfl⟩ := matchFiles_ok h
  exact descriptor_of_mem_group hkeyed hfile

end Discovery

end RuleFlow
