import MarkerCopy.FileSystem.Canonical
import MarkerCopy.Proofs.Growth
import Mathlib.Logic.Basic

/-! How canonical paths are found. What an entry is asked for on the way stays true while a file
system grows, and so does the canonical path that was found. -/

namespace MarkerCopy

theorem Step.expectDirectory_cons {step : Step} {rest : List Step} (hs : step.isIdle) :
    expectDirectory (step :: rest) = (rest.isEmpty || expectDirectory rest) := by
  unfold expectDirectory
  rw [List.dropWhile_cons_of_pos hs]
  cases rest with
  | nil => rfl
  | cons next rest => cases List.dropWhile isIdle (next :: rest) <;> rfl

/-- A directory is not asked for because of what follows, if that goes on with a name. -/
theorem Step.expectDirectory_of_append {name : Name} {rest more left : List Step}
    (hm : more.dropWhile isIdle = .name name :: left) (h : expectDirectory (rest ++ more))
    (tail : List Step) : expectDirectory (rest ++ tail) := by
  unfold expectDirectory at h ⊢
  rw [List.dropWhile_append] at h ⊢
  cases hr : rest.dropWhile isIdle with
  | nil => simp [hr, hm] at h
  | cons step rest => simpa [hr] using h

def Stop.map {α β : Type} (f : α → β) : Stop α → Stop β
  | .done result => .done (f result)
  | .link dir target rest => .link dir target rest

section Follow

variable {α β : Type} {f : Location → List Step → Except Errno (Stop α)} {links : Nat}
  {loc : Location} {steps : List Step} {result : α}

theorem follow_done (h : f loc steps = .ok (.done result)) (links : Nat) :
    follow f links loc steps = .ok result := by
  cases links <;> rw [follow, h]

theorem follow_link {dir : Location} {target : Path} {rest : List Step}
    (h : f loc steps = .ok (.link dir target rest)) (links : Nat) :
    follow f (links + 1) loc steps =
      follow f links (if target.isAbsolute then [] else dir) (target.steps ++ rest) := by
  rw [follow, h]

theorem follow_cases (h : follow f links loc steps = .ok result) :
    f loc steps = .ok (.done result) ∨
      ∃ left dir target rest, links = left + 1 ∧ f loc steps = .ok (.link dir target rest) ∧
        follow f left (if target.isAbsolute then [] else dir) (target.steps ++ rest) =
          .ok result := by
  cases hf : f loc steps with
  | error errno => cases links <;> simp [follow, hf] at h
  | ok stop =>
    cases stop with
    | done found =>
      rw [follow_done hf] at h
      cases h
      exact .inl rfl
    | link dir target rest =>
      cases links with
      | zero => simp [follow, hf] at h
      | succ left =>
        rw [follow_link hf] at h
        exact .inr ⟨left, dir, target, rest, rfl, rfl, h⟩

/-- What every walk up to a link does, the walk along all links does. Where the walks start may be
restricted to places that links lead to again. -/
theorem follow_map {g : Location → List Step → Except Errno (Stop β)} {e : α → β}
    {P : Location → Prop}
    (hfg : ∀ loc steps stop, P loc → f loc steps = .ok stop → g loc steps = .ok (stop.map e))
    (hlink : ∀ loc steps dir target rest, P loc → f loc steps = .ok (.link dir target rest) →
      P (if Path.isAbsolute target then [] else dir))
    (hl : P loc) (h : follow f links loc steps = .ok result) :
    follow g links loc steps = .ok (e result) := by
  induction links generalizing loc steps with
  | zero =>
    rcases follow_cases h with hf | ⟨left, dir, target, rest, hlinks, -, -⟩
    · exact follow_done (hfg loc steps _ hl hf) 0
    · cases hlinks
  | succ links ih =>
    rcases follow_cases h with hf | ⟨_, dir, target, rest, ⟨⟩, hf, hgo⟩
    · exact follow_done (hfg loc steps _ hl hf) (links + 1)
    · rw [follow_link (hfg loc steps _ hl hf)]
      exact ih (hlink loc steps dir target rest hl hf) hgo

end Follow

namespace FileSystem

variable {fs gs : FileSystem} {loc : Location} {rest : List Step}

theorem advanceCanonically_cons_idle {step : Step} (hs : step.isIdle) :
    fs.advanceCanonically loc (step :: rest) = fs.advanceCanonically loc rest := by
  cases step with
  | blank | here => rfl
  | up | name name | unusable segment => cases hs

theorem advanceCanonically_up :
    fs.advanceCanonically loc (.up :: rest) = fs.advanceCanonically loc.tail rest := rfl

theorem advanceCanonically_link {name : Name} {target : Path}
    (hlen : ¬ loc.overflows name.bytes false)
    (hg : fs.get? (name :: loc) = some (.link target)) :
    fs.advanceCanonically loc (.name name :: rest) = .ok (.link loc target rest) := by
  simp [advanceCanonically, hlen, hg]

theorem advanceCanonically_enter {name : Name} {entry : Entry}
    (hlen : ¬ loc.overflows name.bytes false)
    (hlen' : ¬ loc.overflows name.bytes (Step.expectDirectory rest))
    (hd : fs.isDirectory loc) (hg : fs.get? (name :: loc) = some entry) (hl : ¬ entry.isLink)
    (he : Step.expectDirectory rest → entry.isDirectory) :
    fs.advanceCanonically loc (.name name :: rest) =
      fs.advanceCanonically (name :: loc) rest := by
  have hno : ¬ (Step.expectDirectory rest ∧ ¬ entry.isDirectory) := fun h => h.2 (he h.1)
  rw [advanceCanonically, if_neg hlen, hg]
  cases entry with
  | link target => simp [Entry.isLink] at hl
  | directory permissions => simp only [if_neg hlen', if_neg (not_not.mpr hd), if_neg hno]
  | file content permissions => simp only [if_neg hlen', if_neg (not_not.mpr hd), if_neg hno]

theorem advanceCanonically_idle {steps : List Step} {stop : Stop Location}
    (hs : ∀ step ∈ steps, step.isIdle) (h : fs.advanceCanonically loc steps = .ok stop) :
    .done loc = stop := by
  induction steps with
  | nil => exact Except.ok.inj h
  | cons step rest ih =>
    obtain ⟨hstep, hrest⟩ := List.forall_mem_cons.mp hs
    rw [advanceCanonically_cons_idle hstep] at h
    exact ih hrest h

theorem advanceCanonically_name_cases {name : Name} {stop : Stop Location}
    (h : fs.advanceCanonically loc (.name name :: rest) = .ok stop) :
    ¬ loc.overflows name.bytes false ∧ fs.isDirectory loc ∧
      ((∃ target, fs.get? (name :: loc) = some (.link target) ∧ stop = .link loc target rest) ∨
        ∃ entry, fs.get? (name :: loc) = some entry ∧ ¬ entry.isLink ∧
          ¬ loc.overflows name.bytes (Step.expectDirectory rest) ∧
          (Step.expectDirectory rest → entry.isDirectory) ∧
          fs.advanceCanonically (name :: loc) rest = .ok stop) := by
  rw [advanceCanonically] at h
  by_cases hlen : loc.overflows name.bytes false
  · simp [hlen] at h
  cases hg : fs.get? (name :: loc) with
  | none =>
    simp only [if_neg hlen, hg] at h
    split at h
    · cases h
    · split at h <;> cases h
  | some entry =>
    have hd : fs.isDirectory loc := isDirectory_of_get?_cons (Option.isSome_of_eq_some hg)
    refine ⟨hlen, hd, ?_⟩
    by_cases hl : entry.isLink
    · obtain ⟨target, rfl⟩ : ∃ target, entry = .link target := by
        cases entry <;> simp_all [Entry.isLink]
      simp only [if_neg hlen, hg, Except.ok.injEq] at h
      exact .inl ⟨target, rfl, h.symm⟩
    · by_cases hlen' : loc.overflows name.bytes (Step.expectDirectory rest)
      · cases entry <;> simp_all [Entry.isLink]
      · by_cases he : Step.expectDirectory rest → entry.isDirectory
        · have henter := advanceCanonically_enter hlen hlen' hd hg hl he
          rw [advanceCanonically] at henter
          exact .inr ⟨entry, rfl, hl, hlen', he, henter.symm.trans h⟩
        · cases entry <;> simp_all [Entry.isLink]

theorem advanceCanonically_mono {steps : List Step} {stop : Stop Location}
    (h : fs.advanceCanonically loc steps = .ok stop) (hg : fs.Grows gs) :
    gs.advanceCanonically loc steps = .ok stop := by
  induction steps generalizing loc with
  | nil => exact h
  | cons step rest ih =>
    cases step with
    | blank | here =>
      rw [advanceCanonically_cons_idle rfl] at h ⊢
      exact ih h
    | up =>
      rw [advanceCanonically_up] at h ⊢
      exact ih h
    | unusable segment => cases h
    | name name =>
      obtain ⟨hlen, hd, ⟨target, ht, rfl⟩ | ⟨entry, he, hl, hlen', hexpect, hgo⟩⟩ :=
        advanceCanonically_name_cases h
      · exact advanceCanonically_link hlen (hg.get?_of_not_isFile ht (by simp [Entry.isFile]))
      · obtain ⟨new, hn, hnl, hnd⟩ := hg.get?_of_not_isLink he hl
        rw [advanceCanonically_enter hlen hlen' (hg.isDirectory hd) hn hnl (hnd ▸ hexpect)]
        exact ih hgo

/-- Nothing is left of a path behind a file that may be one. -/
theorem eq_nil_of_advanceCanonically {steps : List Step} {stop : Stop Location}
    (h : fs.advanceCanonically loc steps = .ok stop) (hd : ¬ fs.isDirectory loc)
    (he : ¬ Step.expectDirectory steps) : steps = [] := by
  induction steps with
  | nil => rfl
  | cons step rest ih =>
    cases step with
    | blank | here =>
      rw [Step.expectDirectory_cons rfl, Bool.or_eq_true, not_or] at he
      rw [advanceCanonically_cons_idle rfl] at h
      exact absurd (List.isEmpty_iff.mpr (ih h he.2)) he.1
    | up => exact absurd rfl he
    | unusable segment => cases h
    | name name => exact absurd (advanceCanonically_name_cases h).2.1 hd

/-- Canonical paths are found along the walk that looks for the entry. -/
theorem advance_of_advanceCanonically {steps : List Step} {stop : Stop Location}
    (h : fs.advanceCanonically loc steps = .ok stop) (hd : fs.isDirectory loc) :
    fs.advance .find loc steps = .ok (stop.map .occupied) := by
  induction steps generalizing loc with
  | nil =>
    cases h
    rfl
  | cons step rest ih =>
    cases step with
    | blank | here =>
      rw [advanceCanonically_cons_idle rfl] at h
      rw [advance_idle rfl hd]
      exact ih h hd
    | up =>
      rw [advanceCanonically_up] at h
      rw [advance_up hd]
      exact ih h (isDirectory_of_suffix (List.tail_suffix loc) hd)
    | unusable segment => cases h
    | name name =>
      obtain ⟨-, -, ⟨target, ht, rfl⟩ | ⟨entry, he, hl, -, hexpect, hgo⟩⟩ :=
        advanceCanonically_name_cases h
      · exact advance_link hd ht (passes_find rest)
      · rw [advance_enter hd he hl (passes_find rest)]
        by_cases hd' : fs.isDirectory (name :: loc)
        · exact ih hgo hd'
        · have hfile : ¬ Step.expectDirectory rest := fun hx => hd' (by
            simpa [isDirectory, he] using hexpect hx)
          obtain rfl := eq_nil_of_advanceCanonically hgo hd' hfile
          cases hgo
          rfl

theorem walk_of_follow {links : Nat} {steps : List Step} {found : Location}
    (h : follow fs.advanceCanonically links loc steps = .ok found) (hd : fs.isDirectory loc) :
    follow (fs.advance .find) links loc steps = .ok (.occupied found) := by
  refine follow_map (P := fun loc => fs.isDirectory loc)
    (fun _ _ _ hd hs => advance_of_advanceCanonically hs hd) ?_ hd h
  intro loc steps dir target rest hd hs
  obtain ⟨name, -, hdir, -⟩ := arrives_of_advance (advance_of_advanceCanonically hs hd) linkLimit
  split
  · exact fs.isDirectory_root
  · exact hdir

section Append

variable {steps tail more left : List Step} {next : Name}

/-- A path that means a directory can be followed by more names, in the place of idle segments at
its end. -/
theorem advanceCanonically_append {stop : Stop Location}
    (hm : more.dropWhile Step.isIdle = .name next :: left) (ht : ∀ step ∈ tail, step.isIdle)
    (h : fs.advanceCanonically loc (steps ++ tail) = .ok stop) :
    (∃ found, stop = .done found ∧
      fs.advanceCanonically loc (steps ++ more) = fs.advanceCanonically found more) ∨
    ∃ dir target rest, stop = .link dir target (rest ++ tail) ∧
      fs.advanceCanonically loc (steps ++ more) = .ok (.link dir target (rest ++ more)) := by
  induction steps generalizing loc with
  | nil => exact .inl ⟨loc, (advanceCanonically_idle ht h).symm, rfl⟩
  | cons step steps ih =>
    rw [List.cons_append] at h ⊢
    cases step with
    | blank | here =>
      rw [advanceCanonically_cons_idle rfl] at h ⊢
      exact ih h
    | up =>
      rw [advanceCanonically_up] at h ⊢
      exact ih h
    | unusable segment => cases h
    | name name =>
      obtain ⟨hlen, hd, ⟨target, hg, rfl⟩ | ⟨entry, he, hl, hlen', hexpect, hgo⟩⟩ :=
        advanceCanonically_name_cases h
      · exact .inr ⟨loc, target, steps, rfl, advanceCanonically_link hlen hg⟩
      · have hmore (hx : Step.expectDirectory (steps ++ more)) :
            Step.expectDirectory (steps ++ tail) := Step.expectDirectory_of_append hm hx tail
        have hlen'' : ¬ loc.overflows name.bytes (Step.expectDirectory (steps ++ more)) := by
          by_cases hx : Step.expectDirectory (steps ++ more)
          · simpa only [hx, hmore hx] using hlen'
          · rwa [Bool.eq_false_iff.mpr hx]
        rw [advanceCanonically_enter hlen hlen'' hd he hl fun hx => hexpect (hmore hx)]
        exact ih hgo

theorem advanceCanonically_blanks (fs : FileSystem) (loc : Location) (k : Nat)
    (rest : List Step) :
    fs.advanceCanonically loc (List.replicate k .blank ++ rest) =
      fs.advanceCanonically loc rest := by
  induction k with
  | zero => rfl
  | succ k ih =>
    rw [List.replicate_succ, List.cons_append, advanceCanonically_cons_idle rfl]
    exact ih

theorem advanceCanonically_down {base dir : Location} (hs : fs.Stands (dir ++ base))
    (hlen : (Location.text (dir ++ base)).length < pathLimit)
    (hr : Step.expectDirectory rest = false) :
    fs.advanceCanonically base (dir.reverse.map .name ++ rest) =
      fs.advanceCanonically (dir ++ base) rest := by
  induction dir generalizing rest with
  | nil => rfl
  | cons name dir ih =>
    obtain ⟨entry, hg, hl⟩ := hs
    have hd : fs.isDirectory (dir ++ base) := isDirectory_of_get?_cons (Option.isSome_of_eq_some hg)
    have hfits : ¬ Location.overflows (dir ++ base) name.bytes false := by
      rw [List.cons_append, Location.text] at hlen
      simpa [Location.overflows] using hlen
    have habove : (Location.text (dir ++ base)).length < pathLimit := by
      rw [List.cons_append, Location.text, List.length_append] at hlen
      omega
    rw [List.reverse_cons, List.map_append, List.append_assoc]
    rw [ih (stands_of_isDirectory hd) habove rfl]
    exact advanceCanonically_enter hfits (hr ▸ hfits) hd hg hl (by simp [hr])

theorem follow_append {links : Nat} {found last : Location}
    (hm : more.dropWhile Step.isIdle = .name next :: left) (ht : ∀ step ∈ tail, step.isIdle)
    (hgo : fs.advanceCanonically found more = .ok (.done last))
    (h : follow fs.advanceCanonically links loc (steps ++ tail) = .ok found) :
    follow fs.advanceCanonically links loc (steps ++ more) = .ok last := by
  induction links generalizing loc steps with
  | zero =>
    rcases follow_cases h with hf | ⟨_, _, _, _, hlinks, -, -⟩
    · rcases advanceCanonically_append hm ht hf with ⟨_, ⟨⟩, hmore⟩ | ⟨_, _, _, ⟨⟩, -⟩
      exact follow_done (hmore.trans hgo) 0
    · cases hlinks
  | succ links ih =>
    rcases follow_cases h with hf | ⟨_, dir, target, rest, ⟨⟩, hf, hfollow⟩
    · rcases advanceCanonically_append hm ht hf with ⟨_, ⟨⟩, hmore⟩ | ⟨_, _, _, ⟨⟩, -⟩
      exact follow_done (hmore.trans hgo) (links + 1)
    · rcases advanceCanonically_append hm ht hf with ⟨_, ⟨⟩, -⟩ | ⟨_, _, rest, ⟨⟩, hmore⟩
      rw [← List.append_assoc] at hfollow
      rw [follow_link hmore, ← List.append_assoc]
      exact ih hfollow

end Append

theorem canonical_eq_ok_iff {cwd : WorkingDirectory} {p q : Path} :
    fs.canonical cwd p = .ok q ↔
      0 ∉ p.bytes ∧ ¬ p.isEmpty ∧ ¬ (¬ p.isAbsolute ∧ cwd.removed ≠ 0) ∧
        ∃ loc, follow fs.advanceCanonically linkLimit (if p.isAbsolute then [] else cwd.above)
          p.steps = .ok loc ∧ q = loc.path := by
  unfold canonical
  split
  · next h => simp [h]
  · next hnul =>
    split
    · next h => simp [h]
    · next hempty =>
      split
      · next h => simp [h]
      · next hremoved =>
        cases hf : follow fs.advanceCanonically linkLimit
            (if p.isAbsolute then [] else cwd.above) p.steps with
        | error errno => simp
        | ok loc =>
          constructor
          · intro h
            cases h
            exact ⟨hnul, hempty, hremoved, loc, rfl, rfl⟩
          · intro h
            obtain ⟨-, -, -, loc', hl, hq⟩ := h
            cases hl
            rw [hq]

theorem eq_path_of_canonical {cwd : WorkingDirectory} {p q : Path}
    (h : fs.canonical cwd p = .ok q) : ∃ loc : Location, q = loc.path := by
  obtain ⟨-, -, -, loc, -, hq⟩ := canonical_eq_ok_iff.mp h
  exact ⟨loc, hq⟩

/-- A path with a canonical spelling leads to the entry that the spelling names. -/
theorem locate_of_canonical {cwd : WorkingDirectory} {p q : Path}
    (h : fs.canonical cwd p = .ok q) (hc : fs.isDirectory cwd.above)
    (hlen : p.bytes.length < pathLimit) :
    ∃ loc : Location, q = loc.path ∧ fs.locate cwd .find p = .ok (.occupied loc) := by
  obtain ⟨hnul, hempty, hremoved, loc, hf, rfl⟩ := canonical_eq_ok_iff.mp h
  refine ⟨loc, rfl, ?_⟩
  unfold locate
  rw [if_neg hnul, if_neg hempty, if_neg (by omega)]
  by_cases ha : p.isAbsolute
  · rw [if_pos ha] at hf ⊢
    rw [walk, walk_of_follow hf fs.isDirectory_root]
    rfl
  · have hzero : cwd.removed = 0 := Decidable.not_not.mp fun hr => hremoved ⟨ha, hr⟩
    rw [if_neg ha] at hf ⊢
    rw [hzero, walkOut, walk, walk_of_follow hf hc]
    rfl

theorem canonical_mono {cwd : WorkingDirectory} {p q : Path} (h : fs.canonical cwd p = .ok q)
    (hg : fs.Grows gs) : gs.canonical cwd p = .ok q := by
  obtain ⟨hnul, hempty, hremoved, loc, hf, hq⟩ := canonical_eq_ok_iff.mp h
  have hmono (loc : Location) (steps : List Step) (stop : Stop Location) (_ : True)
      (hs : fs.advanceCanonically loc steps = .ok stop) :
      gs.advanceCanonically loc steps = .ok (stop.map id) := by
    rw [advanceCanonically_mono hs hg]
    cases stop <;> rfl
  have hfollow := follow_map hmono (fun _ _ _ _ _ _ _ => trivial) trivial hf
  exact canonical_eq_ok_iff.mpr ⟨hnul, hempty, hremoved, loc, hfollow, hq⟩

end FileSystem

end MarkerCopy
