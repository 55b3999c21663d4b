import RuleFlow.Options.Config
import RuleFlow.Proofs.Parser.Registry
import RuleFlow.Proofs.Steps

/-!
# Configurations in any order

A configuration has mappings on three levels: its keys, the parsers under one of them, and the settings of a parser.
Where no key comes twice on a level once it is normalised, each entry has its own part of the options, so that the
entries can stand in any order.
-/

namespace RuleFlow.Config

open RuleFlow.Document (Reader)
open RuleFlow.Parser (Kind Limits)

/-! ## Mappings -/

/-- The mapping has no two keys with one normal form, and its values fit their keys. -/
def Distinct (normal : Text → Text) (fits : Text → Document → Prop) : Document → Prop
  | .mapping entries => (entries.map fun entry => normal entry.1).Nodup ∧ ∀ entry ∈ entries, fits entry.1 entry.2
  | _ => True

/-- The same keys in another order, each with a value that is related to the one it had. What is no mapping stays as it
is. -/
def Reordered (related : Text → Document → Document → Prop) : Document → Document → Prop
  | .mapping entries, .mapping entries' =>
    ∃ moved, entries.Perm moved ∧
      List.Forall₂ (fun entry entry' => entry.1 = entry'.1 ∧ related entry.1 entry.2 entry'.2) moved entries'
  | d, d' => d = d'

/-- A mapping from known keys to values that fit them. -/
def Known (normal : Text → Text) (names : List Text) (fits : Text → Document → Prop) (d : Document) : Prop :=
  ∃ entries, d = .mapping entries ∧ ∀ entry ∈ entries, normal entry.1 ∈ names ∧ fits entry.1 entry.2

/-! ## Levels -/

def IsParsers (key : Text) : Prop := normalizeKey key = Key.parsers.name

instance (key : Text) : Decidable (IsParsers key) := inferInstanceAs (Decidable (normalizeKey key = Key.parsers.name))

def settingNames : List Text := ["timeout_seconds", "max_retries"]

def DistinctSettings : Document → Prop := Distinct normalizeKey fun _ _ => True

def DistinctParsers : Document → Prop := Distinct parserName fun _ => DistinctSettings

/-- No key comes twice, and neither does a parser or a setting of a parser. -/
def DistinctKeys : Document → Prop := Distinct normalizeKey fun key value => IsParsers key → DistinctParsers value

def ReorderedSettings : Document → Document → Prop := Reordered fun _ => Eq

def ReorderedParsers : Document → Document → Prop := Reordered fun _ => ReorderedSettings

/-- The entries stand in another order, and so do the parsers and the settings of each parser. -/
def ReorderedKeys : Document → Document → Prop :=
  Reordered fun key value value' => (IsParsers key ∧ ReorderedParsers value value') ∨ value = value'

def KnownSettings : Document → Prop := Known normalizeKey settingNames fun _ _ => True

def KnownParsers : Document → Prop := Known parserName (Kind.all.map Kind.name) fun _ => KnownSettings

/-- All keys are known, and so are all parsers and all settings of parsers. -/
def KnownKeys : Document → Prop :=
  Known normalizeKey (Key.all.map Key.name) fun key value => IsParsers key → KnownParsers value

section

variable {normal : Text → Text} {fits : Text → Document → Prop} {related : Text → Document → Document → Prop}
    {d d' : Document}

/-- A mapping that is read entry by entry is read in any order where the steps of different keys can be swapped. -/
theorem Reordered.sameOutcome {β ε : Type} {read : Document → Except ε β} {step : β → Text × Document → Except ε β}
    {b : β}
    (hread : ∀ entries, read (.mapping entries) = entries.foldlM step b)
    (hswap : ∀ x y b, normal x.1 ≠ normal y.1 → SameOutcome (step b x >>= (step · y)) (step b y >>= (step · x)))
    (hvalue : ∀ key value value' b, fits key value → related key value value' →
      SameOutcome (step b (key, value)) (step b (key, value')))
    (hd : Distinct normal fits d) (h : Reordered related d d') : SameOutcome (read d) (read d') := by
  unfold Reordered at h
  split at h
  · rename_i entries entries'
    obtain ⟨moved, hperm, hvalues⟩ := h
    obtain ⟨hkeys, hfits⟩ := hd
    rw [hread, hread]
    refine (SameOutcome.foldlM_perm (fun entry => normal entry.1) hswap hperm hkeys b).trans ?_
    apply SameOutcome.foldlM_forall₂ hvalues
    rintro ⟨key, value⟩ hmem ⟨key', value'⟩ b ⟨hkey, hrelated⟩
    obtain rfl : key = key' := hkey
    exact hvalue key value value' b (hfits _ (hperm.mem_iff.mpr hmem)) hrelated
  · rw [h]
    exact .refl _

/-- Entries that are all read have known keys and fitting values where no step accepts any others. -/
theorem Known.of_foldlM {β ε : Type} {names : List Text} {step : β → Text × Document → Except ε β} {b b' : β}
    {entries : List (Text × Document)}
    (hstep : ∀ entry b b', step b entry = .ok b' → normal entry.1 ∈ names ∧ fits entry.1 entry.2)
    (h : entries.foldlM step b = .ok b') :
    Known normal names fits (.mapping entries) := by
  refine ⟨entries, rfl, fun entry hentry => ?_⟩
  obtain ⟨before, after, hok⟩ := exists_of_foldlM h hentry
  exact hstep entry before after hok

end

/-! ## Settings of a parser -/

section

variable (reader : Reader)

/-- A setting is refused whatever the limits are, or it sets one of the two. -/
theorem applySetting_cases (parser : Text) (entry : Text × Document) :
    (∃ e, ∀ limits, applySetting reader parser limits entry = .error e) ∨
      (normalizeKey entry.1 = "timeout_seconds" ∧
        ∃ t, ∀ limits, applySetting reader parser limits entry = .ok { limits with timeout := some t }) ∨
      (normalizeKey entry.1 = "max_retries" ∧
        ∃ n, ∀ limits, applySetting reader parser limits entry = .ok { limits with maxRetries := some n }) := by
  unfold applySetting
  by_cases htimeout : normalizeKey entry.1 = "timeout_seconds"
  · cases entry.2.text?.bind reader.float? with
    | none => exact .inl ⟨.timeoutNotNumber parser, fun limits => by simp [htimeout]⟩
    | some seconds => exact .inr (.inl ⟨htimeout, milliseconds seconds, fun limits => by simp [htimeout]⟩)
  · by_cases hretries : normalizeKey entry.1 = "max_retries"
    · cases entry.2.text?.bind (reader.int? 32) with
      | none => exact .inl ⟨.retriesNotInteger parser, fun limits => by simp [hretries]⟩
      | some n => exact .inr (.inr ⟨hretries, n, fun limits => by simp [hretries]⟩)
    · exact .inl ⟨.unknownSetting parser (normalizeKey entry.1), fun limits => by simp [htimeout, hretries]⟩

theorem applySetting_swap (parser : Text) (x y : Text × Document) (limits : Limits)
    (hne : normalizeKey x.1 ≠ normalizeKey y.1) :
    SameOutcome (applySetting reader parser limits x >>= (applySetting reader parser · y))
      (applySetting reader parser limits y >>= (applySetting reader parser · x)) := by
  rcases applySetting_cases reader parser x with ⟨e, hx⟩ | ⟨hxkey, t, hx⟩ | ⟨hxkey, n, hx⟩
  · exact .swap_of_error hx limits
  all_goals rcases applySetting_cases reader parser y with ⟨e, hy⟩ | ⟨hykey, t', hy⟩ | ⟨hykey, n', hy⟩
  · exact .swap_of_error_right (applySetting reader parser · x) hy limits
  · exact absurd (hxkey.trans hykey.symm) hne
  · exact .swap_of_ok hx hy (fun _ => rfl) limits
  · exact .swap_of_error_right (applySetting reader parser · x) hy limits
  · exact .swap_of_ok hx hy (fun _ => rfl) limits
  · exact absurd (hxkey.trans hykey.symm) hne

theorem readLimits_reordered (parser : Text) {d d' : Document} (hd : DistinctSettings d) (h : ReorderedSettings d d') :
    SameOutcome (readLimits reader parser d) (readLimits reader parser d') := by
  refine Reordered.sameOutcome (fun _ => rfl) (applySetting_swap reader parser) ?_ hd h
  rintro key value value' limits - rfl
  exact .refl _

variable {reader}

theorem applySetting_known {parser : Text} {entry : Text × Document} {limits limits' : Limits}
    (h : applySetting reader parser limits entry = .ok limits') : normalizeKey entry.1 ∈ settingNames := by
  rcases applySetting_cases reader parser entry with ⟨e, herror⟩ | ⟨hkey, -⟩ | ⟨hkey, -⟩
  · rw [herror] at h
    cases h
  · simp [settingNames, hkey]
  · simp [settingNames, hkey]

theorem readLimits_known {parser : Text} {d : Document} {limits : Limits}
    (h : readLimits reader parser d = .ok limits) :
    KnownSettings d := by
  cases d with
  | null => cases h
  | scalar t => cases h
  | sequence items => cases h
  | mapping entries => exact Known.of_foldlM (fun _ _ _ hstep => ⟨applySetting_known hstep, trivial⟩) h

end

/-! ## Parsers -/

section

variable (reader : Reader)

theorem applyParser_of_none {written : Text} (h : Kind.ofName? (parserName written) = none) (value : Document)
    (o : Options) : applyParser reader o (written, value) = .error (.kind ⟨parserName written⟩) := by
  simp [applyParser, Kind.read, h]

theorem applyParser_of_some {written : Text} {kind : Kind} (h : Kind.ofName? (parserName written) = some kind)
    (value : Document) (o : Options) :
    applyParser reader o (written, value) = (readLimits reader (parserName written) value).map
      fun limits => { o with limits := Kind.update o.limits kind (some limits) } := by
  simp only [applyParser, Kind.read, h]
  cases readLimits reader (parserName written) value with
  | error e => rfl
  | ok limits => rfl

/-- A parser is refused whatever the options are, or its limits are set. -/
theorem applyParser_cases (entry : Text × Document) :
    (∃ e, ∀ o, applyParser reader o entry = .error e) ∨
      ∃ kind limits, kind.name = parserName entry.1 ∧ readLimits reader (parserName entry.1) entry.2 = .ok limits ∧
        ∀ o, applyParser reader o entry = .ok { o with limits := Kind.update o.limits kind (some limits) } := by
  obtain ⟨written, value⟩ := entry
  cases hkind : Kind.ofName? (parserName written) with
  | none => exact .inl ⟨_, applyParser_of_none reader hkind value⟩
  | some kind =>
      have hstep := applyParser_of_some reader hkind value
      cases hlimits : readLimits reader (parserName written) value with
      | error e =>
          rw [hlimits] at hstep
          exact .inl ⟨e, hstep⟩
      | ok limits =>
          rw [hlimits] at hstep
          exact .inr ⟨kind, limits, Kind.name_of_ofName? hkind, rfl, hstep⟩

theorem applyParser_swap (x y : Text × Document) (o : Options) (hne : parserName x.1 ≠ parserName y.1) :
    SameOutcome (applyParser reader o x >>= (applyParser reader · y))
      (applyParser reader o y >>= (applyParser reader · x)) := by
  rcases applyParser_cases reader x with ⟨e, hx⟩ | ⟨kind, limits, hxname, -, hx⟩
  · exact .swap_of_error hx o
  · rcases applyParser_cases reader y with ⟨e, hy⟩ | ⟨kind', limits', hyname, -, hy⟩
    · exact .swap_of_error_right (applyParser reader · x) hy o
    · have hkinds : kind ≠ kind' := by
        rintro rfl
        exact hne (hxname.symm.trans hyname)
      refine .swap_of_ok hx hy (fun o => ?_) o
      simp only [Kind.update_comm o.limits hkinds]

theorem applyParsers_reordered (o : Options) {d d' : Document} (hd : DistinctParsers d) (h : ReorderedParsers d d') :
    SameOutcome (applyParsers reader o d) (applyParsers reader o d') := by
  refine Reordered.sameOutcome (fun _ => rfl) (applyParser_swap reader) ?_ hd h
  intro key value value' o hdistinct hreordered
  cases hkind : Kind.ofName? (parserName key) with
  | none =>
      rw [applyParser_of_none reader hkind value, applyParser_of_none reader hkind value']
      exact .refl _
  | some kind =>
      rw [applyParser_of_some reader hkind value, applyParser_of_some reader hkind value']
      exact (readLimits_reordered reader _ hdistinct hreordered).map _

variable {reader}

theorem applyParser_known {entry : Text × Document} {o o' : Options} (h : applyParser reader o entry = .ok o') :
    parserName entry.1 ∈ Kind.all.map Kind.name ∧ KnownSettings entry.2 := by
  rcases applyParser_cases reader entry with ⟨e, herror⟩ | ⟨kind, limits, hname, hlimits, -⟩
  · rw [herror] at h
    cases h
  · exact ⟨List.mem_map.mpr ⟨kind, kind.mem_all, hname⟩, readLimits_known hlimits⟩

theorem applyParsers_known {o o' : Options} {d : Document} (h : applyParsers reader o d = .ok o') : KnownParsers d := by
  cases d with
  | null => cases h
  | scalar t => cases h
  | sequence items => cases h
  | mapping entries => exact Known.of_foldlM (fun _ _ _ hstep => applyParser_known hstep) h

end

/-! ## Keys -/

theorem Key.mem_all (key : Key) : key ∈ Key.all := by cases key <;> decide

theorem Key.nodup_names : (all.map name).Nodup := by simp [all, name]

theorem Key.name_injective : Function.Injective Key.name := fun k l =>
  List.inj_on_of_nodup_map nodup_names (mem_all k) (mem_all l)

theorem Key.name_of_ofText? {t : Text} {key : Key} (h : Key.ofText? t = some key) : key.name = normalizeKey t := by
  simpa using List.find?_some h

theorem Key.ofText?_eq_some_iff {t : Text} {key : Key} : Key.ofText? t = some key ↔ normalizeKey t = key.name := by
  constructor
  · exact fun h => (name_of_ofText? h).symm
  · intro h
    cases hfound : Key.ofText? t with
    | none =>
        have hno := List.find?_eq_none.mp hfound key key.mem_all
        simp [h] at hno
    | some key' => rw [Key.name_injective ((name_of_ofText? hfound).trans h)]

/-- The options with what the key stands for as in `part`: a field, or the limits of the kinds that have some there. -/
def Key.put (part o : Options) : Key → Options
  | root => { o with root := part.root }
  | out => { o with out := part.out }
  | formats => { o with formats := part.formats }
  | logLevel => { o with logLevel := part.logLevel }
  | ignoredPaths => { o with ignoredPaths := part.ignoredPaths }
  | traces => { o with traces := part.traces }
  | historyCapacity => { o with historyCapacity := part.historyCapacity }
  | statisticsWindow => { o with statisticsWindow := part.statisticsWindow }
  | maxWorkers => { o with maxWorkers := part.maxWorkers }
  | parsers => { o with limits := fun kind => part.limits kind <|> o.limits kind }

theorem Key.put_comm {k l : Key} (hne : k ≠ l) (p q o : Options) : l.put q (k.put p o) = k.put p (l.put q o) := by
  cases k <;> cases l <;> first | rfl | exact absurd rfl hne

theorem applyParser_put (reader : Reader) (o p : Options) (entry : Text × Document) :
    applyParser reader (Key.parsers.put p o) entry = (applyParser reader p entry).map (Key.parsers.put · o) := by
  rcases applyParser_cases reader entry with ⟨e, herror⟩ | ⟨kind, limits, -, -, hok⟩
  · rw [herror, herror]
    rfl
  · have hlimits : Kind.update (Key.parsers.put p o).limits kind (some limits) =
        fun k => Kind.update p.limits kind (some limits) k <|> o.limits k := by
      funext k
      by_cases hk : k = kind
      · subst hk
        rw [Kind.update_self, Kind.update_self]
        rfl
      · rw [Kind.update_of_ne _ _ hk, Kind.update_of_ne _ _ hk]
        rfl
    rw [hok, hok, hlimits]
    rfl

theorem applyParsers_put (reader : Reader) (o p : Options) (value : Document) :
    applyParsers reader (Key.parsers.put p o) value = (applyParsers reader p value).map (Key.parsers.put · o) := by
  cases value with
  | null => rfl
  | scalar t => rfl
  | sequence items => rfl
  | mapping entries => exact foldlM_map (Key.parsers.put · o) (applyParser_put reader o) entries p

/-- The value of a key is read whatever the other options are, and has its own place among them. -/
theorem apply_eq (reader : Reader) (o : Options) (key : Key) (value : Document) :
    apply reader o key value = (apply reader {} key value).map (key.put · o) := by
  cases key with
  | root => unfold apply; cases readPath .root value <;> rfl
  | out => unfold apply; cases readPath .out value <;> rfl
  | traces => unfold apply; cases readPath .traces value <;> rfl
  | formats => unfold apply; cases addTexts .formats value addFormats <;> rfl
  | ignoredPaths =>
      unfold apply
      cases addTexts .ignoredPaths value fun paths listed => .ok (Options.addPaths paths listed) <;> rfl
  | logLevel => unfold apply; cases readLevel .logLevel value <;> rfl
  | historyCapacity => unfold apply; cases readCount reader .historyCapacity value <;> rfl
  | statisticsWindow => unfold apply; cases readCount reader .statisticsWindow value <;> rfl
  | maxWorkers => unfold apply; cases readCount reader .maxWorkers value <;> rfl
  | parsers => exact applyParsers_put reader o {} value

/-! ## Configurations -/

section

variable (reader : Reader)

/-- An entry is refused whatever the options are, or its key has a place in them that is set. -/
theorem applyEntry_cases (entry : Text × Document) :
    (∃ e, ∀ o, applyEntry reader o entry = .error e) ∨
      ∃ (key : Key) (part : Options),
        normalizeKey entry.1 = key.name ∧ ∀ o, applyEntry reader o entry = .ok (key.put part o) := by
  unfold applyEntry
  cases hkey : Key.ofText? entry.1 with
  | none => exact .inl ⟨.unknownKey entry.1, fun o => rfl⟩
  | some key =>
      have hput : ∀ o, apply reader o key entry.2 = (apply reader {} key entry.2).map (key.put · o) :=
        fun o => apply_eq reader o key entry.2
      cases hpart : apply reader {} key entry.2 with
      | error e =>
          rw [hpart] at hput
          exact .inl ⟨e, hput⟩
      | ok part =>
          rw [hpart] at hput
          exact .inr ⟨key, part, Key.ofText?_eq_some_iff.mp hkey, hput⟩

theorem applyEntry_swap (x y : Text × Document) (o : Options) (hne : normalizeKey x.1 ≠ normalizeKey y.1) :
    SameOutcome (applyEntry reader o x >>= (applyEntry reader · y))
      (applyEntry reader o y >>= (applyEntry reader · x)) := by
  rcases applyEntry_cases reader x with ⟨e, hx⟩ | ⟨key, part, hxkey, hx⟩
  · exact .swap_of_error hx o
  · rcases applyEntry_cases reader y with ⟨e, hy⟩ | ⟨key', part', hykey, hy⟩
    · exact .swap_of_error_right (applyEntry reader · x) hy o
    · have hkeys : key ≠ key' := by
        rintro rfl
        exact hne (hxkey.trans hykey.symm)
      exact .swap_of_ok hx hy (Key.put_comm hkeys part part') o

theorem applyEntry_parsers {key : Text} (hkey : IsParsers key) (value : Document) (o : Options) :
    applyEntry reader o (key, value) = applyParsers reader o value := by
  rw [applyEntry, Key.ofText?_eq_some_iff.mpr hkey]
  rfl

theorem ofDocument_reordered {d d' : Document} (hd : DistinctKeys d) (h : ReorderedKeys d d') :
    SameOutcome (ofDocument reader d) (ofDocument reader d') := by
  refine Reordered.sameOutcome (fun _ => rfl) (applyEntry_swap reader) ?_ hd h
  rintro key value value' o hdistinct (⟨hkey, hreordered⟩ | rfl)
  · rw [applyEntry_parsers reader hkey, applyEntry_parsers reader hkey]
    exact applyParsers_reordered reader o (hdistinct hkey) hreordered
  · exact .refl _

variable {reader}

theorem applyEntry_known {entry : Text × Document} {o o' : Options} (h : applyEntry reader o entry = .ok o') :
    normalizeKey entry.1 ∈ Key.all.map Key.name ∧ (IsParsers entry.1 → KnownParsers entry.2) := by
  rcases applyEntry_cases reader entry with ⟨e, herror⟩ | ⟨key, part, hkey, -⟩
  · rw [herror] at h
    cases h
  · refine ⟨List.mem_map.mpr ⟨key, key.mem_all, hkey.symm⟩, fun hparsers => ?_⟩
    rw [applyEntry_parsers reader hparsers] at h
    exact applyParsers_known h

theorem ofDocument_known {d : Document} {o : Options} (h : ofDocument reader d = .ok o) : KnownKeys d := by
  cases d with
  | null => cases h
  | scalar t => cases h
  | sequence items => cases h
  | mapping entries => exact Known.of_foldlM (fun _ _ _ hstep => applyEntry_known hstep) h

end

/-- A configuration without repeated keys is read the same in any order of its entries, of its parsers and of their
settings: it fails in both orders or gives the same options. None is read with an unknown key, parser or setting
anywhere in it. -/
theorem ofDocument_any_order (reader : Reader) (d : Document) :
    (DistinctKeys d → ∀ d', ReorderedKeys d d' →
      (∃ o, ofDocument reader d = .ok o ∧ ofDocument reader d' = .ok o) ∨
        ∃ e e', ofDocument reader d = .error e ∧ ofDocument reader d' = .error e') ∧
      ∀ o, ofDocument reader d = .ok o → KnownKeys d := by
  refine ⟨fun hd d' h => ?_, fun o => ofDocument_known⟩
  have hsame := ofDocument_reordered reader hd h
  generalize ofDocument reader d = x, ofDocument reader d' = y at hsame
  cases hsame with
  | ok o => exact .inl ⟨o, rfl, rfl⟩
  | error e e' => exact .inr ⟨e, e', rfl, rfl⟩

theorem ofDocument_any_order_all_levels :
    let timeout : Text × Document := ("timeout-seconds", .scalar "5")
    let retries : Text × Document := ("max_retries", .scalar "1")
    let python : Text × Document := (" python ", .mapping [("Max-Retries", .scalar "0")])
    let formats : Text × Document := ("Format", .scalar "json")
    let d : Document := .mapping [formats, ("parsers", .mapping [("JSP", .mapping [timeout, retries]), python])]
    let d' : Document := .mapping [("parsers", .mapping [python, ("JSP", .mapping [retries, timeout])]), formats]
    (DistinctKeys d ∧ ReorderedKeys d d') ∧ KnownKeys d ∧
      ∃ o, ofDocument .json d = .ok o ∧ ofDocument .json d' = .ok o ∧
        (o.limits .jsp).map (·.maxRetries) = some (some 1) := by
  intro timeout retries python formats d d'
  have hsettings : DistinctSettings (.mapping [timeout, retries]) := ⟨by decide, by simp⟩
  have hpython : DistinctSettings python.2 := ⟨by decide, by simp⟩
  have hparsers : DistinctParsers (.mapping [("JSP", .mapping [timeout, retries]), python]) := by
    refine ⟨by decide, ?_⟩
    simp only [List.forall_mem_cons]
    exact ⟨hsettings, hpython, by simp⟩
  have hdistinct : DistinctKeys d := by
    refine ⟨by decide, ?_⟩
    simp only [List.forall_mem_cons]
    exact ⟨fun h => absurd h (by decide), fun _ => hparsers, by simp⟩
  have hmoved : ReorderedSettings (.mapping [timeout, retries]) (.mapping [retries, timeout]) :=
    ⟨_, .swap _ _ _, .cons ⟨rfl, rfl⟩ (.cons ⟨rfl, rfl⟩ .nil)⟩
  have hkept : ReorderedSettings python.2 python.2 := ⟨_, .refl _, .cons ⟨rfl, rfl⟩ .nil⟩
  have hswapped : ReorderedParsers (.mapping [("JSP", .mapping [timeout, retries]), python])
      (.mapping [python, ("JSP", .mapping [retries, timeout])]) :=
    ⟨_, .swap _ _ _, .cons ⟨rfl, hkept⟩ (.cons ⟨rfl, hmoved⟩ .nil)⟩
  have hreordered : ReorderedKeys d d' :=
    ⟨_, .swap _ _ _, .cons ⟨rfl, .inl ⟨by decide, hswapped⟩⟩ (.cons ⟨rfl, .inr rfl⟩ .nil)⟩
  have hretries : (ofDocument .json d).toOption.bind (fun o => (o.limits .jsp).map (·.maxRetries)) = some (some 1) := by
    decide +kernel
  obtain ⟨horder, hknown⟩ := ofDocument_any_order .json d
  rcases horder hdistinct d' hreordered with ⟨o, ho, ho'⟩ | ⟨e, -, he, -⟩
  · rw [ho] at hretries
    exact ⟨⟨hdistinct, hreordered⟩, hknown o ho, o, ho, ho', hretries⟩
  · rw [he] at hretries
    cases hretries

end RuleFlow.Config
