import MarkerCopy.CommandLine.Arguments
import MarkerCopy.Proofs.Encoding
import MarkerCopy.Proofs.Spelling
import Mathlib.Data.List.Nodup

/-! Which command lines are understood. A line is read as the options that its words spell, from
left to right, and what is read of it does not depend on their order. -/

namespace MarkerCopy

def Flag.all : List Flag :=
  [.dryRun, .json, .verbose, .quiet]

theorem Flag.mem_all (f : Flag) : f ∈ all := by
  cases f <;> decide

theorem Flag.nodup_all : all.Nodup := by
  decide

/-- An option as it is given, with its value if it takes one. -/
inductive Given where
  | setting (setting : Setting) (value : Path)
  | flag (flag : Flag)
deriving DecidableEq

namespace Given

def parameter : Given → Parameter
  | setting s _ => .setting s
  | flag f => .switch (.flag f)

/-- Whether the value is one that the option takes. -/
def Valid : Given → Prop
  | setting .infile value => ¬ value.isEmpty
  | setting .outdir value => value.IsText
  | setting .external value => value.IsText
  | flag _ => True

end Given

namespace Arguments

def has (arguments : Arguments) : Flag → Bool
  | .dryRun => arguments.dryRun
  | .json => arguments.json
  | .verbose => arguments.verbose
  | .quiet => arguments.quiet

/-- The options that give the arguments. -/
def given (arguments : Arguments) : List Given :=
  [.setting .infile arguments.infile, .setting .outdir (.ofString arguments.outdir),
    .setting .external (.ofString arguments.external)] ++
      (Flag.all.filter arguments.has).map .flag

end Arguments

/-- Two dashes and the name of an option. -/
def Parameter.word (p : Parameter) : Path :=
  ⟨Word.dash :: Word.dash :: Utf8.encode p.name.toList⟩

/-- The name of a setting with its value attached by an equals sign. -/
def Setting.wordWith (s : Setting) (value : Path) : Path :=
  ⟨(Parameter.setting s).word.bytes ++ Word.equals :: value.bytes⟩

/-- Whether a word can be taken for the value of the option before it. -/
def Path.IsDetached (word : Path) : Prop :=
  word = ⟨[Word.dash]⟩ ∨ word.bytes.head? ≠ some Word.dash

/-- The ways to write an option. -/
inductive Spelled : Given → List Path → Prop
  | attached {s value} : Spelled (.setting s value) [s.wordWith value]
  | detached {s value} : value.IsDetached →
      Spelled (.setting s value) [(Parameter.setting s).word, value]
  | flag {f} : Spelled (.flag f) [(Parameter.switch (.flag f)).word]

/-- The ways to write some options one after the other. -/
inductive SpelledOut : List Given → List Path → Prop
  | nil : SpelledOut [] []
  | cons {g gs words rest} : Spelled g words → SpelledOut gs rest →
      SpelledOut (g :: gs) (words ++ rest)

theorem SpelledOut.append {gs hs : List Given} {words rest : List Path} (h : SpelledOut gs words)
    (h' : SpelledOut hs rest) : SpelledOut (gs ++ hs) (words ++ rest) := by
  induction h with
  | nil => exact h'
  | cons hg _ ih =>
    rw [List.append_assoc]
    exact .cons hg ih

namespace Word

/-- The bytes of a long option. -/
def longBytes (name : List UInt8) : Option Path → List UInt8
  | none => dash :: dash :: name
  | some value => dash :: dash :: name ++ equals :: value.bytes

theorem ofPath_cases (word : Path) :
    ofPath word = .plain ∧ word.IsDetached ∨
    ofPath word = .separator ∧ word = ⟨[dash, dash]⟩ ∨
    (∃ letters, ofPath word = .short letters) ∨
    ∃ name attached, ofPath word = .long name attached ∧ word = ⟨longBytes name attached⟩ := by
  obtain ⟨bytes⟩ := word
  rcases bytes with _ | ⟨first, bytes⟩
  · exact .inl ⟨rfl, .inr (by simp)⟩
  by_cases hf : first = dash
  · subst hf
    rcases bytes with _ | ⟨second, rest⟩
    · exact .inl ⟨rfl, .inl rfl⟩
    by_cases hs : second = dash
    · subst hs
      by_cases hr : rest = []
      · subst hr
        exact .inr (.inl ⟨rfl, rfl⟩)
      · have hsplit := List.takeWhile_append_dropWhile (p := (· ≠ equals)) (l := rest)
        have hlong : ofPath ⟨dash :: dash :: rest⟩ = _ := if_neg hr
        refine .inr (.inr (.inr ?_))
        cases hd : rest.dropWhile (· ≠ equals) with
        | nil =>
          rw [hd] at hlong
          exact ⟨rest, none, hlong, rfl⟩
        | cons b attached =>
          -- what is not a part of the name begins with the equals sign
          have hb : b = equals := by
            have hhead := List.head?_dropWhile_not (· ≠ equals) rest
            rw [hd] at hhead
            simpa using hhead
          rw [hd] at hlong
          rw [hd, hb] at hsplit
          refine ⟨rest.takeWhile (· ≠ equals), some ⟨attached⟩, hlong, ?_⟩
          exact congrArg (fun tail => Path.mk (dash :: dash :: tail)) hsplit.symm
    · exact .inr (.inr (.inl ⟨second :: rest, by simp [ofPath, hs]⟩))
  · exact .inl ⟨by simp [ofPath, hf], .inr (by simpa using hf)⟩

theorem ofPath_of_isDetached {word : Path} (h : word.IsDetached) : ofPath word = .plain := by
  rcases h with rfl | h
  · rfl
  · obtain ⟨bytes⟩ := word
    cases bytes with
    | nil => rfl
    | cons first rest => simp_all [ofPath]

theorem ofPath_word (p : Parameter) :
    ofPath p.word = .long (Utf8.encode p.name.toList) none := by
  rcases p with (_ | _ | _) | ((_ | _ | _ | _) | _ | _) <;> decide

theorem ofPath_wordWith (s : Setting) (value : Path) :
    ofPath (s.wordWith value) =
      .long (Utf8.encode (Parameter.setting s).name.toList) (some value) := by
  cases s <;> rfl

end Word

theorem Parameter.ofName?_eq_some_iff {name : List UInt8} {p : Parameter} :
    ofName? name = some p ↔ name = Utf8.encode p.name.toList := by
  constructor
  · intro h
    have hname := List.find?_some h
    exact (beq_iff_eq.mp hname).symm
  · rintro rfl
    rcases p with (_ | _ | _) | ((_ | _ | _ | _) | _ | _) <;> decide

theorem Parameter.ofName?_name (p : Parameter) : ofName? (Utf8.encode p.name.toList) = some p :=
  ofName?_eq_some_iff.mpr rfl

namespace Draft

variable {draft draft' result : Draft} {words : List Path}

/-- What an option adds to the ones that were met before. -/
def take (draft : Draft) : Given → Except UsageError Draft
  | .setting s value => draft.give s value
  | .flag f => draft.turnOn (.flag f)

theorem switchOfLetters_eq_ok {letters : List UInt8} {switch : Switch}
    (h : switchOfLetters letters = .ok switch) : switch = .help ∨ switch = .version := by
  unfold switchOfLetters at h
  split at h
  · split at h
    · next c _ _ s hs =>
      cases h
      unfold Switch.ofLetter? at hs
      split at hs
      · exact .inl (Option.some.inj hs).symm
      · split at hs
        · exact .inr (Option.some.inj hs).symm
        · cases hs
    · cases h
  · cases h

theorem flag_of_turnOn {switch : Switch} (h : draft.turnOn switch = .ok draft') :
    ∃ f, switch = .flag f := by
  cases switch with
  | flag f => exact ⟨f, rfl⟩
  | help => cases h
  | version => cases h

theorem read_flag (draft : Draft) (pending : Pending) (f : Flag) (words : List Path) :
    draft.read pending ((Parameter.switch (.flag f)).word :: words) =
      (do (← (← draft.settle pending).turnOn (.flag f)).read none words) := by
  rw [read.eq_def]
  simp only [Word.ofPath_word, Parameter.ofName?_name]

theorem read_attached (draft : Draft) (pending : Pending) (s : Setting) (value : Path)
    (words : List Path) :
    draft.read pending (s.wordWith value :: words) =
      (do (← (← draft.settle pending).give s value).read none words) := by
  rw [read.eq_def]
  simp only [Word.ofPath_wordWith, Parameter.ofName?_name]

theorem read_setting (draft : Draft) (pending : Pending) (s : Setting) (words : List Path) :
    draft.read pending ((Parameter.setting s).word :: words) =
      (do (← draft.settle pending).read (some (s, none)) words) := by
  rw [read.eq_def]
  simp only [Word.ofPath_word, Parameter.ofName?_name]

theorem read_detached {value : Path} (h : value.IsDetached) (draft : Draft) (s : Setting)
    (words : List Path) :
    draft.read (some (s, none)) (value :: words) = draft.read (some (s, some value)) words := by
  rw [read.eq_def]
  simp only [Word.ofPath_of_isDetached h]

/-- The ways in which a word can be read without an error. -/
inductive Reads (draft : Draft) (pending : Pending) (result : Draft) : Path → List Path → Prop
  | separator : draft.settle pending = .ok result →
      Reads draft pending result ⟨[Word.dash, Word.dash]⟩ []
  | flag {settled next f words} : draft.settle pending = .ok settled →
      settled.turnOn (.flag f) = .ok next → next.read none words = .ok result →
      Reads draft pending result (Parameter.switch (.flag f)).word words
  | attached {settled next s value words} : draft.settle pending = .ok settled →
      settled.give s value = .ok next → next.read none words = .ok result →
      Reads draft pending result (s.wordWith value) words
  | setting {settled s words} : draft.settle pending = .ok settled →
      settled.read (some (s, none)) words = .ok result →
      Reads draft pending result (Parameter.setting s).word words
  | detached {s value words} : pending = some (s, none) → value.IsDetached →
      draft.read (some (s, some value)) words = .ok result →
      Reads draft pending result value words

theorem reads_of_read {pending : Pending} {word : Path}
    (h : draft.read pending (word :: words) = .ok result) :
    Reads draft pending result word words := by
  rw [read.eq_def] at h
  simp only at h
  rcases Word.ofPath_cases word with ⟨hw, hd⟩ | ⟨hw, rfl⟩ | ⟨letters, hw⟩ |
    ⟨name, attached, hw, rfl⟩ <;> rw [hw] at h <;> dsimp only at h
  · -- a value
    split at h
    · exact .detached rfl hd h
    · cases h
  · split at h
    · exact .separator h
    · cases h
  · obtain ⟨switch, hs, h⟩ := bind_eq_ok_iff.mp h
    obtain ⟨settled, -, h⟩ := bind_eq_ok_iff.mp h
    obtain ⟨next, hn, -⟩ := bind_eq_ok_iff.mp h
    rcases switchOfLetters_eq_ok hs with rfl | rfl <;> cases hn
  · split at h
    · cases h
    · cases h
    · next switch hp =>
      obtain ⟨settled, hsettled, h⟩ := bind_eq_ok_iff.mp h
      obtain ⟨next, hn, hread⟩ := bind_eq_ok_iff.mp h
      obtain ⟨f, rfl⟩ := flag_of_turnOn hn
      rw [Parameter.ofName?_eq_some_iff.mp hp]
      exact .flag hsettled hn hread
    · next s value hp =>
      obtain ⟨settled, hsettled, h⟩ := bind_eq_ok_iff.mp h
      obtain ⟨next, hn, h⟩ := bind_eq_ok_iff.mp h
      rw [Parameter.ofName?_eq_some_iff.mp hp]
      exact .attached hsettled hn h
    · next s hp =>
      obtain ⟨settled, hsettled, h⟩ := bind_eq_ok_iff.mp h
      rw [Parameter.ofName?_eq_some_iff.mp hp]
      exact .setting hsettled h

/-- The words of an option that is not yet settled. -/
def pendingWords : Pending → List Path
  | none => []
  | some (s, none) => [(Parameter.setting s).word]
  | some (s, some value) => [(Parameter.setting s).word, value]

theorem foldlM_append_eq_ok {gs hs : List Given} (h : gs.foldlM take draft = .ok draft')
    (h' : hs.foldlM take draft' = .ok result) : (gs ++ hs).foldlM take draft = .ok result := by
  rw [List.foldlM_append, h]
  exact h'

theorem foldlM_cons_eq_ok {g : Given} {gs : List Given} (h : draft.take g = .ok draft')
    (h' : gs.foldlM take draft' = .ok result) : (g :: gs).foldlM take draft = .ok result := by
  rw [List.foldlM_cons, h]
  exact h'

theorem spelledOut_of_settle {pending : Pending}
    (hp : ∀ s value, pending = some (s, some value) → value.IsDetached)
    (h : draft.settle pending = .ok draft') :
    ∃ gs, SpelledOut gs (pendingWords pending) ∧ gs.foldlM take draft = .ok draft' := by
  match pending, h with
  | none, h => exact ⟨[], .nil, h⟩
  | some (s, some value), h =>
    exact ⟨[.setting s value], .cons (.detached (hp s value rfl)) .nil, foldlM_cons_eq_ok h rfl⟩

/-- Whatever is read without an error spells out the options that it is read as. -/
theorem spelledOut_of_read {pending : Pending} (hw : ⟨[Word.dash, Word.dash]⟩ ∉ words)
    (hp : ∀ s value, pending = some (s, some value) → value.IsDetached)
    (h : draft.read pending words = .ok result) :
    ∃ gs, SpelledOut gs (pendingWords pending ++ words) ∧ gs.foldlM take draft = .ok result := by
  induction words generalizing draft pending with
  | nil =>
    rw [List.append_nil]
    exact spelledOut_of_settle hp h
  | cons word words ih =>
    obtain ⟨hword, hwords⟩ := List.ne_and_not_mem_of_not_mem_cons hw
    cases reads_of_read h with
    | separator _ => exact absurd rfl hword
    | @flag settled next f _ hs hn hr =>
      obtain ⟨before, hbefore, hb⟩ := spelledOut_of_settle hp hs
      obtain ⟨after, hafter, ha⟩ := ih hwords (by simp) hr
      refine ⟨before ++ .flag f :: after, ?_, foldlM_append_eq_ok hb (foldlM_cons_eq_ok hn ha)⟩
      exact hbefore.append (.cons .flag hafter)
    | @attached settled next s value _ hs hn hr =>
      obtain ⟨before, hbefore, hb⟩ := spelledOut_of_settle hp hs
      obtain ⟨after, hafter, ha⟩ := ih hwords (by simp) hr
      refine ⟨before ++ .setting s value :: after, ?_,
        foldlM_append_eq_ok hb (foldlM_cons_eq_ok hn ha)⟩
      exact hbefore.append (.cons .attached hafter)
    | @setting settled s _ hs hr =>
      obtain ⟨before, hbefore, hb⟩ := spelledOut_of_settle hp hs
      obtain ⟨after, hafter, ha⟩ := ih hwords (by simp) hr
      exact ⟨before ++ after, hbefore.append hafter, foldlM_append_eq_ok hb ha⟩
    | @detached s value _ hs hd hr =>
      subst hs
      exact ih hwords (by simpa using hd) hr

theorem read_of_settle {s : Setting} {value : Path} (hs : draft.give s value = .ok draft')
    (h : draft'.read none words = .ok result) :
    draft.read (some (s, some value)) words = .ok result := by
  have hsettle : draft.settle (some (s, some value)) = .ok draft' := hs
  cases words with
  | nil =>
    cases h
    exact hsettle
  | cons word words =>
    cases reads_of_read h with
    | separator hr =>
      cases hr
      exact hsettle
    | flag hn hf hr =>
      cases hn
      rw [read_flag, hsettle]
      exact bind_eq_ok_iff.mpr ⟨_, rfl, bind_eq_ok_iff.mpr ⟨_, hf, hr⟩⟩
    | attached hn hg hr =>
      cases hn
      rw [read_attached, hsettle]
      exact bind_eq_ok_iff.mpr ⟨_, rfl, bind_eq_ok_iff.mpr ⟨_, hg, hr⟩⟩
    | setting hn hr =>
      cases hn
      rw [read_setting, hsettle]
      exact hr
    | detached hn _ _ => cases hn

theorem read_of_spelledOut {gs : List Given} (h : SpelledOut gs words)
    (hr : gs.foldlM take draft = .ok result) : draft.read none words = .ok result := by
  induction h generalizing draft with
  | nil => exact hr
  | @cons g gs words rest hg _ ih =>
    rw [List.foldlM_cons] at hr
    obtain ⟨next, hn, hr⟩ := bind_eq_ok_iff.mp hr
    have hrest := ih hr
    cases hg with
    | attached =>
      rw [List.singleton_append, read_attached]
      exact bind_eq_ok_iff.mpr ⟨_, rfl, bind_eq_ok_iff.mpr ⟨_, hn, hrest⟩⟩
    | detached hd =>
      rw [List.cons_append, List.singleton_append, read_setting]
      refine (read_detached hd draft _ rest).trans ?_
      exact read_of_settle hn hrest
    | flag =>
      rw [List.singleton_append, read_flag]
      exact bind_eq_ok_iff.mpr ⟨_, rfl, bind_eq_ok_iff.mpr ⟨_, hn, hrest⟩⟩

/-- Reading a line is taking one after the other the options that it spells out. -/
theorem read_eq_ok_iff (hw : ⟨[Word.dash, Word.dash]⟩ ∉ words) :
    draft.read none words = .ok result ↔
      ∃ gs, SpelledOut gs words ∧ gs.foldlM take draft = .ok result := by
  constructor
  · intro h
    exact spelledOut_of_read hw (by simp) h
  · rintro ⟨gs, hs, hr⟩
    exact read_of_spelledOut hs hr

/-- The options that were met, in no particular order. -/
def given (draft : Draft) : List Given :=
  draft.infile.toList.map (Given.setting .infile) ++
    draft.outdir.toList.map (fun text => Given.setting .outdir (.ofString text)) ++
      draft.external.toList.map (fun text => Given.setting .external (.ofString text)) ++
        draft.flags.map Given.flag

@[simp] theorem given_empty : empty.given = [] :=
  rfl

def parameters (draft : Draft) : List Parameter :=
  draft.given.map Given.parameter

theorem setting_mem_parameters {s : Setting} :
    Parameter.setting s ∈ draft.parameters ↔ draft.has s := by
  obtain ⟨infile, outdir, external, flags⟩ := draft
  cases s <;> cases infile <;> cases outdir <;> cases external <;>
    simp [parameters, given, Given.parameter, has]

theorem flag_mem_parameters {f : Flag} :
    Parameter.switch (.flag f) ∈ draft.parameters ↔ f ∈ draft.flags := by
  simp [parameters, given, Given.parameter]

theorem of_give {s : Setting} {value : Path} (h : draft.give s value = .ok draft') :
    (Given.setting s value).Valid ∧ ¬ draft.has s ∧
      draft'.given.Perm (.setting s value :: draft.given) := by
  obtain ⟨infile, outdir, external, flags⟩ := draft
  unfold give at h
  split at h
  · cases h
  · next hs =>
    cases s with
    | infile =>
      obtain rfl : infile = none := by simpa [has] using hs
      simp only at h
      split at h
      · cases h
      · next hv =>
        cases h
        exact ⟨hv, hs, .refl _⟩
    | outdir =>
      obtain rfl : outdir = none := by simpa [has] using hs
      cases ht : value.text? with
      | none => simp [ht] at h
      | some text =>
        rw [ht] at h
        cases h
        obtain rfl := Path.text?_eq_some_iff.mp ht
        exact ⟨⟨text, rfl⟩, hs, by simp [given]⟩
    | external =>
      obtain rfl : external = none := by simpa [has] using hs
      cases ht : value.text? with
      | none => simp [ht] at h
      | some text =>
        rw [ht] at h
        cases h
        obtain rfl := Path.text?_eq_some_iff.mp ht
        refine ⟨⟨text, rfl⟩, hs, ?_⟩
        have hmiddle : ((infile.toList.map (Given.setting .infile) ++
            outdir.toList.map fun text => Given.setting .outdir (.ofString text)) ++
              Given.setting .external (.ofString text) :: flags.map Given.flag).Perm (_ :: _) :=
          List.perm_middle
        simpa [given] using hmiddle

theorem exists_give {s : Setting} {value : Path} (hv : (Given.setting s value).Valid)
    (hs : ¬ draft.has s) : ∃ draft', draft.give s value = .ok draft' := by
  unfold give
  rw [if_neg hs]
  cases s with
  | infile => exact ⟨_, if_neg hv⟩
  | outdir =>
    obtain ⟨text, rfl⟩ := hv
    rw [Path.text?_eq_some_iff.mpr rfl]
    exact ⟨_, rfl⟩
  | external =>
    obtain ⟨text, rfl⟩ := hv
    rw [Path.text?_eq_some_iff.mpr rfl]
    exact ⟨_, rfl⟩

theorem of_take {g : Given} (h : draft.take g = .ok draft') :
    g.Valid ∧ g.parameter ∉ draft.parameters ∧ draft'.given.Perm (g :: draft.given) := by
  cases g with
  | setting s value =>
    obtain ⟨hv, hs, hperm⟩ := of_give h
    exact ⟨hv, fun hm => hs (setting_mem_parameters.mp hm), hperm⟩
  | flag f =>
    simp only [take, turnOn] at h
    split at h
    · cases h
    · next hf =>
      cases h
      refine ⟨trivial, fun hm => hf (flag_mem_parameters.mp hm), ?_⟩
      simp only [given, List.map_cons]
      exact List.perm_middle

theorem exists_take {g : Given} (hg : g.Valid) (hp : g.parameter ∉ draft.parameters) :
    ∃ draft', draft.take g = .ok draft' := by
  cases g with
  | setting s value => exact exists_give hg fun hs => hp (setting_mem_parameters.mpr hs)
  | flag f =>
    have hf : f ∉ draft.flags := fun hm => hp (flag_mem_parameters.mpr hm)
    exact ⟨_, if_neg hf⟩

/-- Options that were taken are valid, and are all that is new. No option was taken twice. -/
theorem of_foldlM_take {gs : List Given} (h : gs.foldlM take draft = .ok result)
    (hd : draft.parameters.Nodup) :
    (∀ g ∈ gs, g.Valid) ∧ result.given.Perm (gs ++ draft.given) ∧ result.parameters.Nodup := by
  induction gs generalizing draft with
  | nil =>
    cases h
    exact ⟨by simp, .refl _, hd⟩
  | cons g gs ih =>
    rw [List.foldlM_cons] at h
    obtain ⟨next, hn, h⟩ := bind_eq_ok_iff.mp h
    obtain ⟨hg, hp, hperm⟩ := of_take hn
    have hnext : next.parameters.Nodup :=
      (hperm.map Given.parameter).nodup_iff.mpr (List.nodup_cons.mpr ⟨hp, hd⟩)
    obtain ⟨hgs, hresult, hnodup⟩ := ih h hnext
    refine ⟨List.forall_mem_cons.mpr ⟨hg, hgs⟩, ?_, hnodup⟩
    exact hresult.trans ((hperm.append_left gs).trans List.perm_middle)

theorem exists_foldlM_take {gs : List Given} (hg : ∀ g ∈ gs, g.Valid)
    (hn : (gs.map Given.parameter ++ draft.parameters).Nodup) :
    ∃ result, gs.foldlM take draft = .ok result := by
  induction gs generalizing draft with
  | nil => exact ⟨draft, rfl⟩
  | cons g gs ih =>
    obtain ⟨hvalid, hvalids⟩ := List.forall_mem_cons.mp hg
    rw [List.map_cons, List.cons_append] at hn
    have hp : g.parameter ∉ draft.parameters := fun hm =>
      (List.nodup_cons.mp hn).1 (List.mem_append_right _ hm)
    obtain ⟨next, hnext⟩ := exists_take hvalid hp
    obtain ⟨-, -, hperm⟩ := of_take hnext
    have hmoved : (gs.map Given.parameter ++ next.parameters).Nodup := by
      have hp' := (hperm.map Given.parameter).append_left (gs.map Given.parameter)
      exact (hp'.trans List.perm_middle).nodup_iff.mpr hn
    obtain ⟨result, hresult⟩ := ih hvalids hmoved
    exact ⟨result, foldlM_cons_eq_ok hnext hresult⟩

theorem nodup_flags (hd : draft.parameters.Nodup) : draft.flags.Nodup := by
  have hg : draft.given.Nodup := List.Nodup.of_map Given.parameter hd
  have hf : (draft.flags.map Given.flag).Nodup := (List.nodup_append.mp hg).2.1
  exact List.Nodup.of_map Given.flag hf

theorem infile_of_mem_given {value : Path} (h : Given.setting .infile value ∈ draft.given) :
    draft.infile = some value := by
  simpa [given] using h

theorem outdir_of_mem_given {text : String}
    (h : Given.setting .outdir (.ofString text) ∈ draft.given) : draft.outdir = some text := by
  simpa [given] using h

theorem external_of_mem_given {text : String}
    (h : Given.setting .external (.ofString text) ∈ draft.given) : draft.external = some text := by
  simpa [given] using h

theorem arguments_eq_ok_iff {arguments : Arguments} (hd : draft.parameters.Nodup) :
    draft.arguments = .ok arguments ↔ draft.given.Perm arguments.given := by
  constructor
  · intro h
    obtain ⟨_ | infile, _ | outdir, _ | external, flags⟩ := draft <;> cases h
    have hflags : flags.Nodup := nodup_flags hd
    have hall : (Flag.all.filter fun f => decide (f ∈ flags)).Nodup := .filter _ Flag.nodup_all
    have hperm : flags.Perm (Flag.all.filter fun f => decide (f ∈ flags)) := by
      rw [List.perm_ext_iff_of_nodup hflags hall]
      simp [Flag.mem_all]
    exact (hperm.map Given.flag).append_left [_, _, _]
  · intro h
    have hi : draft.infile = some arguments.infile :=
      infile_of_mem_given (h.mem_iff.mpr (by simp [Arguments.given]))
    have ho : draft.outdir = some arguments.outdir :=
      outdir_of_mem_given (h.mem_iff.mpr (by simp [Arguments.given]))
    have he : draft.external = some arguments.external :=
      external_of_mem_given (h.mem_iff.mpr (by simp [Arguments.given]))
    have hf : ∀ f, f ∈ draft.flags ↔ arguments.has f := by
      intro f
      have hm : Given.flag f ∈ draft.given ↔ Given.flag f ∈ arguments.given := h.mem_iff
      simpa [given, Arguments.given, Flag.mem_all] using hm
    have hhas : (fun f => decide (f ∈ draft.flags)) = arguments.has := by
      funext f
      rw [Bool.eq_iff_iff, decide_eq_true_iff]
      exact hf f
    have hdraft : draft = ⟨some arguments.infile, some arguments.outdir, some arguments.external,
        draft.flags⟩ := by
      rw [← hi, ← ho, ← he]
    rw [hdraft]
    refine congrArg Except.ok ?_
    change Arguments.mk _ _ _ _ _ _ _ = Arguments.mk _ _ _ (arguments.has .dryRun)
      (arguments.has .json) (arguments.has .verbose) (arguments.has .quiet)
    rw [← hhas]

end Draft

theorem Arguments.valid_of_mem_given {arguments : Arguments} (h : ¬ arguments.infile.isEmpty) :
    ∀ g ∈ arguments.given, g.Valid := by
  intro g hg
  rcases List.mem_append.mp hg with hg | hg
  · simp only [List.mem_cons, List.not_mem_nil, or_false] at hg
    rcases hg with rfl | rfl | rfl
    · exact h
    · exact ⟨_, rfl⟩
    · exact ⟨_, rfl⟩
  · obtain ⟨f, -, rfl⟩ := List.mem_map.mp hg
    trivial

theorem Arguments.nodup_parameters (arguments : Arguments) :
    (arguments.given.map Given.parameter).Nodup := by
  have hflags : (Flag.all.filter arguments.has).Nodup := Flag.nodup_all.filter _
  have hmap : ((Flag.all.filter arguments.has).map fun f => Parameter.switch (.flag f)).Nodup :=
    hflags.map fun f f' h => by simpa using h
  simpa [given, Given.parameter, Function.comp_def] using hmap

/-- A line without a bare `--` gives some arguments exactly if, in some order, it spells out each of
the three settings and each of the flags that they have once, and nothing else. -/
theorem parse_eq_ok_iff {words : List Path} (hw : ⟨[Word.dash, Word.dash]⟩ ∉ words)
    {arguments : Arguments} :
    Arguments.parse words = .ok arguments ↔
      ¬ arguments.infile.isEmpty ∧
        ∃ gs : List Given, gs.Perm arguments.given ∧ SpelledOut gs words := by
  constructor
  · intro h
    obtain ⟨draft, hread, ha⟩ := bind_eq_ok_iff.mp h
    obtain ⟨gs, hs, hfold⟩ := (Draft.read_eq_ok_iff hw).mp hread
    obtain ⟨hvalid, hperm, hnodup⟩ := Draft.of_foldlM_take hfold List.nodup_nil
    rw [Draft.given_empty, List.append_nil] at hperm
    have hall : gs.Perm arguments.given :=
      hperm.symm.trans ((Draft.arguments_eq_ok_iff hnodup).mp ha)
    have hinfile : (Given.setting .infile arguments.infile).Valid :=
      hvalid _ (hall.mem_iff.mpr List.mem_cons_self)
    exact ⟨hinfile, gs, hall, hs⟩
  · rintro ⟨hi, gs, hall, hs⟩
    have hvalid : ∀ g ∈ gs, g.Valid := fun g hg =>
      Arguments.valid_of_mem_given hi g (hall.mem_iff.mp hg)
    have hnodup : (gs.map Given.parameter ++ Draft.empty.parameters).Nodup := by
      simpa [Draft.parameters, Draft.given_empty] using
        (hall.map Given.parameter).nodup_iff.mpr arguments.nodup_parameters
    obtain ⟨draft, hdraft⟩ := Draft.exists_foldlM_take hvalid hnodup
    obtain ⟨-, hperm, hd⟩ := Draft.of_foldlM_take hdraft List.nodup_nil
    rw [Draft.given_empty, List.append_nil] at hperm
    have hread : Draft.empty.read none words = .ok draft :=
      (Draft.read_eq_ok_iff hw).mpr ⟨gs, hs, hdraft⟩
    exact bind_eq_ok_iff.mpr
      ⟨draft, hread, (Draft.arguments_eq_ok_iff hd).mpr (hperm.trans hall)⟩

def mixedWords : List Path :=
  [.ofString "--json", .ofString "--extern", .ofString "a=b", .ofString "--infile=--json",
    .ofString "--outdir", .ofString "-"]

def mixedArguments : Arguments where
  infile := .ofString "--json"
  outdir := "-"
  external := "a=b"
  dryRun := false
  json := true
  verbose := false
  quiet := false

theorem parse_mixedWords :
    ⟨[Word.dash, Word.dash]⟩ ∉ mixedWords ∧
      Arguments.parse mixedWords = .ok mixedArguments := by
  have hw : ⟨[Word.dash, Word.dash]⟩ ∉ mixedWords := by decide
  have hs : SpelledOut [.flag .json, .setting .external (.ofString "a=b"),
      .setting .infile (.ofString "--json"), .setting .outdir (.ofString "-")] mixedWords :=
    .cons .flag (.cons (.detached (.inr (by decide))) (.cons .attached
      (.cons (.detached (.inl rfl)) .nil)))
  have hperm : List.Perm [Given.flag .json, .setting .external (.ofString "a=b"),
      .setting .infile (.ofString "--json"), .setting .outdir (.ofString "-")]
      mixedArguments.given := by decide
  exact ⟨hw, (parse_eq_ok_iff hw).mpr ⟨by decide, _, hperm, hs⟩⟩

end MarkerCopy
