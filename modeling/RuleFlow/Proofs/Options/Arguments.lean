import RuleFlow.Options.Arguments
import RuleFlow.Proofs.Options.Layers
import RuleFlow.Proofs.Steps

/-!
# Arguments after arguments

Arguments that come after others are read as if they stood alone, and what they give follows on what the others gave
(`Options.followedBy`): their single values are the last ones, their lists go on with what is new, and help ends the
reading.
-/

namespace RuleFlow

namespace Options

/-- The items, and after them those of `more` that are not among them. -/
def withNew (items more : List Text) : List Text := items ++ more.filter (· ∉ items)

/-- The options of arguments after the options of the arguments before them. -/
def followedBy (earlier later : Options) : Options where
  root := later.root <|> earlier.root
  out := later.out <|> earlier.out
  config := later.config <|> earlier.config
  traces := later.traces <|> earlier.traces
  formats := withNew earlier.formats later.formats
  ignoredPaths := withNew earlier.ignoredPaths later.ignoredPaths
  logLevel := later.logLevel <|> earlier.logLevel
  historyCapacity := later.historyCapacity <|> earlier.historyCapacity
  statisticsWindow := later.statisticsWindow <|> earlier.statisticsWindow
  maxWorkers := later.maxWorkers <|> earlier.maxWorkers
  limits kind := later.limits kind <|> earlier.limits kind
  showHelp := later.showHelp

variable {items more : List Text} {item : Text} {o : Options}

theorem Single.get_followedBy {α : Type} (s : Single α) (earlier later : Options) :
    s.get (earlier.followedBy later) = (s.get later).or (s.get earlier) := by
  cases s <;> simp [get, followedBy]

theorem followedBy_empty (ho : o.showHelp = false) : o.followedBy {} = o := by
  cases o
  simp_all [followedBy, withNew]

/-! ## Lists -/

theorem mem_withNew : item ∈ withNew items more ↔ item ∈ items ∨ item ∈ more := by
  by_cases h : item ∈ items <;> simp [withNew, h]

theorem withNew_assoc (items more most : List Text) :
    withNew (withNew items more) most = withNew items (withNew more most) := by
  have hfilter : most.filter (· ∉ withNew items more) = (most.filter (· ∉ more)).filter (· ∉ items) := by
    rw [List.filter_filter]
    apply List.filter_congr
    intro item _
    simp [mem_withNew]
  rw [withNew, hfilter, withNew, withNew, withNew, List.filter_append, List.append_assoc]

theorem addNew_eq (items : List Text) (item : Text) : addNew items item = withNew items [item] := by
  by_cases h : item ∈ items <;> simp [addNew, withNew, h]

theorem addNew_withNew (items more : List Text) (item : Text) :
    addNew (withNew items more) item = withNew items (addNew more item) := by
  rw [addNew_eq, addNew_eq, withNew_assoc]

theorem addPaths_withNew (items more : List Text) (listed : Text) :
    addPaths (withNew items more) listed = withNew items (addPaths more listed) :=
  List.foldl_hom (withNew items) (addNew_withNew items)

theorem addFormat_withNew (items more : List Text) (item : Text) :
    addFormat (withNew items more) item = (addFormat more item).map (withNew items) := by
  by_cases h : Text.lower item ∈ supportedFormats <;> simp [addFormat, h, addNew_withNew, Except.map]

theorem addFormats_withNew (items more : List Text) (listed : Text) :
    addFormats (withNew items more) listed = (addFormats more listed).map (withNew items) :=
  foldlM_map (withNew items) (addFormat_withNew items) _ more

end Options

namespace Arguments

open Options (Single)

variable {command : Command} {o p : Options} {xs : List Text}

/-! ## Flags -/

/-- The effect goes along with the options of arguments before, and does not ask for help unless it ends the reading. -/
def Effect.Follows : Effect → Prop
  | stop => True
  | change set => ∀ o p : Options, set (o.followedBy p) = o.followedBy (set p) ∧ (set p).showHelp = p.showHelp
  | take set => ∀ (o p : Options) (value : Text), set (o.followedBy p) value = (set p value).map o.followedBy ∧
      ∀ q, set p value = .ok q → q.showHelp = p.showHelp

theorem takeFormats_followedBy (o p : Options) (value : Text) :
    takeFormats (o.followedBy p) value = (takeFormats p value).map o.followedBy := by
  have hformats : Options.addFormats (o.followedBy p).formats value =
      (Options.addFormats p.formats value).map (Options.withNew o.formats) :=
    Options.addFormats_withNew o.formats p.formats value
  unfold takeFormats
  rw [hformats]
  cases Options.addFormats p.formats value with
  | ok formats => rfl
  | error e => rfl

theorem showHelp_takeFormats {value : Text} {q : Options} (h : takeFormats p value = .ok q) :
    q.showHelp = p.showHelp := by
  unfold takeFormats at h
  split at h
  · cases h
    rfl
  · cases h

theorem takeLevel_followedBy (o p : Options) (value : Text) :
    takeLevel (o.followedBy p) value = (takeLevel p value).map o.followedBy := by
  unfold takeLevel
  cases Log.Level.read value with
  | ok level => rfl
  | error e => rfl

theorem showHelp_takeLevel {value : Text} {q : Options} (h : takeLevel p value = .ok q) : q.showHelp = p.showHelp := by
  unfold takeLevel at h
  split at h
  · cases h
    rfl
  · cases h

theorem Flag.effect_follows (flag : Flag) : flag.effect.Follows := by
  cases flag with
  | help => trivial
  | verbose => exact fun o p => ⟨rfl, rfl⟩
  | debug => exact fun o p => ⟨rfl, rfl⟩
  | config => exact fun o p value => ⟨rfl, fun q hq => by cases hq; rfl⟩
  | root => exact fun o p value => ⟨rfl, fun q hq => by cases hq; rfl⟩
  | out => exact fun o p value => ⟨rfl, fun q hq => by cases hq; rfl⟩
  | traces => exact fun o p value => ⟨rfl, fun q hq => by cases hq; rfl⟩
  | logLevel => exact fun o p value => ⟨takeLevel_followedBy o p value, fun q hq => showHelp_takeLevel hq⟩
  | format => exact fun o p value => ⟨takeFormats_followedBy o p value, fun q hq => showHelp_takeFormats hq⟩
  | ignoredPaths =>
      refine fun o p value => ⟨?_, fun q hq => by cases hq; rfl⟩
      have hpaths : Options.addPaths (o.followedBy p).ignoredPaths value =
          Options.withNew o.ignoredPaths (Options.addPaths p.ignoredPaths value) :=
        Options.addPaths_withNew o.ignoredPaths p.ignoredPaths value
      dsimp only
      rw [hpaths]
      rfl

/-! ## Reading -/

/-- Reading goes along with the options of arguments before. -/
theorem readFrom_followedBy (command : Command) (o p : Options) (xs : List Text) :
    readFrom command (o.followedBy p) xs = (readFrom command p xs).map o.followedBy := by
  fun_induction readFrom command p xs with
  | case1 p => rfl
  | case2 p argument rest hflag => simp [readFrom, hflag, Except.map]
  | case3 p argument rest flag hflag heffect => simp [readFrom, hflag, heffect, Except.map, Options.followedBy]
  | case4 p argument rest flag hflag set heffect ih =>
      have hset : Effect.Follows (.change set) := heffect ▸ flag.effect_follows
      simp [readFrom, hflag, heffect, (hset o p).1, ih]
  | case5 p argument flag hflag set heffect => simp [readFrom, hflag, heffect, Except.map]
  | case6 p argument flag hflag set heffect value rest next hnext ih =>
      have hset : Effect.Follows (.take set) := heffect ▸ flag.effect_follows
      simp [readFrom, hflag, heffect, (hset o p value).1, hnext, Except.map, ih]
  | case7 p argument flag hflag set heffect value rest e he =>
      have hset : Effect.Follows (.take set) := heffect ▸ flag.effect_follows
      simp [readFrom, hflag, heffect, (hset o p value).1, he, Except.map]

/-- Reading goes on where the first part of the arguments ends, unless that asks for help. -/
theorem readFrom_append (ho : o.showHelp = false) (h : readFrom command o xs = .ok p) (ys : List Text) :
    readFrom command o (xs ++ ys) = if p.showHelp then .ok p else readFrom command p ys := by
  fun_induction readFrom command o xs with
  | case1 o =>
      cases h
      simp [ho]
  | case2 => cases h
  | case3 o argument rest flag hflag heffect =>
      cases h
      simp [readFrom, hflag, heffect]
  | case4 o argument rest flag hflag set heffect ih =>
      have hset : Effect.Follows (.change set) := heffect ▸ flag.effect_follows
      simp [readFrom, hflag, heffect, ih ((hset o o).2.trans ho) h]
  | case5 => cases h
  | case6 o argument flag hflag set heffect value rest next hnext ih =>
      have hset : Effect.Follows (.take set) := heffect ▸ flag.effect_follows
      simp [readFrom, hflag, heffect, hnext, ih (((hset o o value).2 next hnext).trans ho) h]
  | case7 => cases h

theorem parse_append (hxs : parse command xs = .ok o) (ho : o.showHelp = false) (ys : List Text) :
    parse command (xs ++ ys) = (parse command ys).map o.followedBy := by
  have happend := readFrom_append rfl hxs ys
  rw [ho, if_neg Bool.false_ne_true] at happend
  calc parse command (xs ++ ys) = readFrom command o ys := happend
    _ = readFrom command (o.followedBy {}) ys := by rw [Options.followedBy_empty ho]
    _ = (parse command ys).map o.followedBy := readFrom_followedBy command o {} ys

theorem parse_append_of_help (hxs : parse command xs = .ok o) (ho : o.showHelp = true) (ys : List Text) :
    parse command (xs ++ ys) = .ok o := by
  have happend := readFrom_append rfl hxs ys
  rwa [ho, if_pos rfl] at happend

/-- Arguments after others that were read without a call for help fail as they fail alone, and what they give alone
follows on what the others gave. So of three parts, each single value is that of the last part that sets it, and nothing
after a part that calls for help is read. -/
theorem parse_after (hxs : parse command xs = .ok o) (ho : o.showHelp = false) :
    (∀ ys, parse command (xs ++ ys) = (parse command ys).map o.followedBy) ∧
      (∀ ys zs p q, parse command ys = .ok p → p.showHelp = false → parse command zs = .ok q →
        ∃ r, parse command (xs ++ ys ++ zs) = .ok r ∧
          ∀ {α : Type} (s : Single α), s.get r = (s.get q).or ((s.get p).or (s.get o))) ∧
      ∀ ys zs p, parse command ys = .ok p → p.showHelp = true →
        parse command (xs ++ ys ++ zs) = .ok (o.followedBy p) := by
  refine ⟨parse_append hxs ho, ?_, ?_⟩
  · intro ys zs p q hys hp hzs
    refine ⟨o.followedBy (p.followedBy q), ?_, fun s => ?_⟩
    · rw [List.append_assoc, parse_append hxs ho, parse_append hys hp, hzs]
      rfl
    · rw [Single.get_followedBy, Single.get_followedBy, Option.or_assoc]
  · intro ys zs p hys hp
    rw [List.append_assoc, parse_append hxs ho, parse_append_of_help hys hp]
    rfl

/-- A second root replaces the first one, a format that is there already is not added again, and what comes after a call
for help is not read. -/
theorem parse_after_root_and_format :
    let xs : List Text := ["--root", "a", "--format", "json", "--log-level", "warn"]
    let ys : List Text := ["--root", "--help", "--format", "markdown,json"]
    let help : List Text := ["-h"]
    let cut : List Text := ["--root"]
    ∃ o, parse .analyze xs = .ok o ∧ o.showHelp = false ∧
      (∃ r, parse .analyze (xs ++ ys) = .ok r ∧ r.root = some (Text.ofString "--help") ∧
        r.formats = [Text.ofString "json", Text.ofString "markdown"] ∧
        r.logLevel = some .warn ∧ r.showHelp = false) ∧
      ∃ r, parse .analyze (xs ++ help ++ cut) = .ok r ∧ r.root = some (Text.ofString "a") ∧ r.showHelp = true := by
  intro xs ys help cut
  obtain ⟨o, hxs⟩ : ∃ o, parse .analyze xs = .ok o := ⟨_, rfl⟩
  have ho : o.showHelp = false := by
    cases hxs
    rfl
  obtain ⟨hafter, -, hhelp⟩ := parse_after hxs ho
  refine ⟨o, hxs, ho, ⟨_, hafter ys, ?_⟩, _, hhelp help cut _ rfl rfl, ?_⟩
  all_goals cases hxs
  · exact ⟨rfl, rfl, rfl, rfl⟩
  · exact ⟨rfl, rfl⟩

end Arguments

end RuleFlow
