import MarkerCopy.FileSystem.Walk
import Mathlib.Logic.Relation

/-! Walks taken one stride at a time. A stride never looks at what is left of the path after it,
so a walk can be cut in two, and goes on as before where a longer rest is left. -/

namespace MarkerCopy

/-- A walk under way: the links that it may still follow, where it is, and what is left. -/
structure Walk where
  links : Nat
  loc : Location
  rest : List Step

namespace Walk

def append (w : Walk) (steps : List Step) : Walk :=
  { w with rest := w.rest ++ steps }

def finish (w : Walk) (fs : FileSystem) (purpose : Purpose) : Except Errno Place :=
  follow (fs.advance purpose) w.links w.loc w.rest

end Walk

def Entry.isLink : Entry → Bool
  | .link _ => true
  | _ => false

/-- One stride of a walk that only looks for what is there. -/
inductive Stride (fs : FileSystem) : Walk → Walk → Prop
  | idle {n loc step rest} : step.isIdle → fs.isDirectory loc →
      Stride fs ⟨n, loc, step :: rest⟩ ⟨n, loc, rest⟩
  | up {n loc rest} : fs.isDirectory loc → Stride fs ⟨n, loc, .up :: rest⟩ ⟨n, loc.tail, rest⟩
  | enter {n loc name entry rest} : fs.isDirectory loc → fs.get? (name :: loc) = some entry →
      ¬ entry.isLink → Stride fs ⟨n, loc, .name name :: rest⟩ ⟨n, name :: loc, rest⟩
  | link {n loc name target rest} : fs.isDirectory loc →
      fs.get? (name :: loc) = some (.link target) →
      Stride fs ⟨n + 1, loc, .name name :: rest⟩
        ⟨n, if target.isAbsolute then [] else loc, target.steps ++ rest⟩

abbrev Reaches (fs : FileSystem) := Relation.ReflTransGen (Stride fs)

/-- Whether a name before `rest` is one that the purpose passes through. -/
def Purpose.passes (purpose : Purpose) (rest : List Step) : Bool :=
  !purpose.refusesSlash rest && !(purpose == .make && purpose.endsBefore rest)

theorem passes_find (rest : List Step) : Purpose.find.passes rest := by
  simp [Purpose.passes, Purpose.refusesSlash]

theorem not_blanks_of_mem {step : Step} {rest : List Step} (hm : step ∈ rest)
    (hs : step ≠ .blank) : rest.isEmpty = false ∧ rest.all (· == .blank) = false := by
  refine ⟨List.isEmpty_eq_false_iff.mpr (List.ne_nil_of_mem hm), Bool.eq_false_iff.mpr ?_⟩
  intro h
  exact hs (by simpa using List.all_eq_true.mp h step hm)

theorem endsBefore_of_mem {step : Step} {rest : List Step} (hm : step ∈ rest)
    (hs : step ≠ .blank) (purpose : Purpose) : purpose.endsBefore rest = false := by
  obtain ⟨he, hb⟩ := not_blanks_of_mem hm hs
  simp [Purpose.endsBefore, he, hb]

theorem passes_of_mem {step : Step} {rest : List Step} (hm : step ∈ rest) (hs : step ≠ .blank)
    (purpose : Purpose) : purpose.passes rest := by
  obtain ⟨-, hb⟩ := not_blanks_of_mem hm hs
  simp [Purpose.passes, Purpose.refusesSlash, hb, endsBefore_of_mem hm hs]

section

variable {fs : FileSystem} {purpose : Purpose} {loc : Location} {rest : List Step}

theorem advance_idle {step : Step} (hs : step.isIdle) (hd : fs.isDirectory loc) :
    fs.advance purpose loc (step :: rest) = fs.advance purpose loc rest := by
  cases step <;> simp_all [FileSystem.advance, Step.isIdle]

theorem advance_up (hd : fs.isDirectory loc) :
    fs.advance purpose loc (.up :: rest) = fs.advance purpose loc.tail rest := by
  simp [FileSystem.advance, hd]

theorem passes_iff : purpose.passes rest ↔
    purpose.refusesSlash rest = false ∧ (purpose == .make && purpose.endsBefore rest) = false := by
  simp only [Purpose.passes, Bool.and_eq_true, Bool.not_eq_true']

theorem advance_enter {name : Name} {entry : Entry} (hd : fs.isDirectory loc)
    (hg : fs.get? (name :: loc) = some entry) (hl : ¬ entry.isLink) (hp : purpose.passes rest) :
    fs.advance purpose loc (.name name :: rest) = fs.advance purpose (name :: loc) rest := by
  obtain ⟨hr, he⟩ := passes_iff.mp hp
  cases entry <;> simp_all [FileSystem.advance, Entry.isLink]

theorem advance_link {name : Name} {target : Path} (hd : fs.isDirectory loc)
    (hg : fs.get? (name :: loc) = some (.link target)) (hp : purpose.passes rest) :
    fs.advance purpose loc (.name name :: rest) = .ok (.link loc target rest) := by
  obtain ⟨hr, he⟩ := passes_iff.mp hp
  simp_all [FileSystem.advance]

end

theorem Stride.append {fs : FileSystem} {w v : Walk} (h : Stride fs w v) (steps : List Step) :
    Stride fs (w.append steps) (v.append steps) := by
  cases h with
  | idle hs hd => exact .idle hs hd
  | up hd => exact .up hd
  | enter hd hg hl => exact .enter hd hg hl
  | link hd hg => simpa [Walk.append] using Stride.link hd hg

theorem Reaches.append {fs : FileSystem} {w v : Walk} (h : Reaches fs w v) (steps : List Step) :
    Reaches fs (w.append steps) (v.append steps) := by
  induction h with
  | refl => exact .refl
  | tail _ hs ih => exact ih.tail (hs.append steps)

theorem reaches_blanks {fs : FileSystem} {n : Nat} {loc : Location} {steps : List Step}
    (hd : fs.isDirectory loc) (hb : ∀ step ∈ steps, step = .blank) :
    Reaches fs ⟨n, loc, steps⟩ ⟨n, loc, []⟩ := by
  induction steps with
  | nil => exact .refl
  | cons step steps ih =>
    have hs : step.isIdle := by rw [hb step (by simp)]; rfl
    exact (ih fun step hm => hb step (by simp [hm])).head (.idle hs hd)

theorem Walk.finish_congr {fs : FileSystem} {purpose : Purpose} {n : Nat} {loc loc' : Location}
    {steps steps' : List Step}
    (h : fs.advance purpose loc steps = fs.advance purpose loc' steps') :
    (Walk.mk n loc steps).finish fs purpose = (Walk.mk n loc' steps').finish fs purpose := by
  unfold Walk.finish follow
  rw [h]

theorem Walk.finish_nil (fs : FileSystem) (purpose : Purpose) (n : Nat) (loc : Location) :
    (Walk.mk n loc []).finish fs purpose = .ok (.occupied loc) := by
  unfold Walk.finish follow
  simp [FileSystem.advance]

/-- The only strides that a purpose can forbid are those over the last name. -/
theorem Stride.finish_eq {fs : FileSystem} {purpose : Purpose} {w v : Walk} (h : Stride fs w v)
    (hp : purpose.passes w.rest.tail) : w.finish fs purpose = v.finish fs purpose := by
  cases h with
  | idle hs hd => exact Walk.finish_congr (advance_idle hs hd)
  | up hd => exact Walk.finish_congr (advance_up hd)
  | enter hd hg hl => exact Walk.finish_congr (advance_enter hd hg hl hp)
  | @link n loc name target rest hd hg =>
    have ha : fs.advance purpose loc (.name name :: rest) = .ok (.link loc target rest) :=
      advance_link hd hg hp
    change follow (fs.advance purpose) (n + 1) loc (.name name :: rest) =
      follow (fs.advance purpose) n _ (target.steps ++ rest)
    rw [follow, ha]

theorem Reaches.finish_find {fs : FileSystem} {w v : Walk} (h : Reaches fs w v) :
    w.finish fs .find = v.finish fs .find := by
  induction h with
  | refl => rfl
  | tail _ hs ih => exact ih.trans (hs.finish_eq (passes_find _))

/-- A walk for any purpose goes as one that only looks, as long as a name is left. -/
theorem Reaches.finish_append {fs : FileSystem} {purpose : Purpose} {w v : Walk}
    (h : Reaches fs w v) {step : Step} {steps : List Step} (hm : step ∈ steps)
    (hs : step ≠ .blank) :
    (w.append steps).finish fs purpose = (v.append steps).finish fs purpose := by
  induction h with
  | refl => rfl
  | @tail u v _ hu ih =>
    refine ih.trans ((hu.append steps).finish_eq (passes_of_mem ?_ hs purpose))
    have hne : u.rest ≠ [] := by cases hu <;> simp
    simp [Walk.append, List.tail_append_of_ne_nil hne, hm]

theorem Stride.of_append {fs : FileSystem} {w v : Walk} {steps : List Step}
    (h : Stride fs (w.append steps) v) (hne : w.rest ≠ []) :
    ∃ u, Stride fs w u ∧ v = u.append steps := by
  obtain ⟨n, loc, rest⟩ := w
  cases rest with
  | nil => simp at hne
  | cons step rest =>
    simp only [Walk.append, List.cons_append] at h
    cases h with
    | idle hs hd => exact ⟨_, .idle hs hd, rfl⟩
    | up hd => exact ⟨_, .up hd, rfl⟩
    | enter hd hg hl => exact ⟨_, .enter hd hg hl, rfl⟩
    | link hd hg => exact ⟨_, .link hd hg, by simp [Walk.append]⟩

theorem Reaches.split {fs : FileSystem} {w v : Walk} {steps : List Step}
    (h : Reaches fs (w.append steps) v) (hv : v.rest = []) :
    ∃ u, u.rest = [] ∧ Reaches fs w u ∧ Reaches fs (u.append steps) v := by
  -- from the front, because the strides of the first stretch come first
  generalize hw : w.append steps = x at h
  induction h using Relation.ReflTransGen.head_induction_on generalizing w with
  | refl =>
    have hr : w.rest = [] := by
      rw [← hw] at hv
      exact (List.append_eq_nil_iff.mp hv).1
    exact ⟨w, hr, .refl, hw ▸ .refl⟩
  | head hs ht ih =>
    by_cases hr : w.rest = []
    · exact ⟨w, hr, .refl, hw ▸ ht.head hs⟩
    · subst hw
      obtain ⟨y, hy, rfl⟩ := hs.of_append hr
      obtain ⟨u, hu, hyu, huv⟩ := ih rfl
      exact ⟨u, hu, hyu.head hy, huv⟩

theorem Reaches.eq_of_rest_eq_nil {fs : FileSystem} {w v : Walk} (h : Reaches fs w v)
    (hw : w.rest = []) : w = v := by
  rcases Relation.ReflTransGen.cases_head h with rfl | ⟨x, hs, -⟩
  · rfl
  · cases hs <;> cases hw

theorem Stride.isDirectory {fs : FileSystem} {w v : Walk} (h : Stride fs w v) :
    fs.isDirectory w.loc := by
  cases h with
  | idle _ hd => exact hd
  | up hd => exact hd
  | enter hd _ _ => exact hd
  | link hd _ => exact hd

theorem Stride.unique (fs : FileSystem) : Relator.RightUnique (Stride fs) := by
  intro w u v hu hv
  cases hu with
  | idle hs _ =>
    cases hv with
    | idle _ _ => rfl
    | up _ => cases hs
    | enter _ _ _ => cases hs
    | link _ _ => cases hs
  | up _ =>
    cases hv with
    | idle hs _ => cases hs
    | up _ => rfl
  | enter _ hg hl =>
    cases hv with
    | idle hs _ => cases hs
    | enter _ _ _ => rfl
    | link _ hg' =>
      rw [hg] at hg'
      cases hg'
      simp [Entry.isLink] at hl
  | link _ hg =>
    cases hv with
    | idle hs _ => cases hs
    | enter _ hg' hl =>
      rw [hg] at hg'
      cases hg'
      simp [Entry.isLink] at hl
    | link _ hg' =>
      rw [hg] at hg'
      cases hg'
      rfl

/-- Whatever a walk passes is on the way to its end. -/
theorem Reaches.to_end {fs : FileSystem} {w u v : Walk} (h : Reaches fs w v)
    (hu : Reaches fs w u) (hv : v.rest = []) : Reaches fs u v := by
  rcases Relation.ReflTransGen.total_of_right_unique (Stride.unique fs) hu h with huv | hvu
  · exact huv
  · have he := Reaches.eq_of_rest_eq_nil hvu hv
    exact he ▸ .refl

theorem Reaches.isDirectory_of_rest_ne_nil {fs : FileSystem} {w v : Walk} (h : Reaches fs w v)
    (hv : v.rest = []) (hw : w.rest ≠ []) : fs.isDirectory w.loc := by
  rcases Relation.ReflTransGen.cases_head h with rfl | ⟨x, hs, -⟩
  · exact absurd hv hw
  · exact hs.isDirectory

theorem Reaches.isDirectory_of_blanks {fs : FileSystem} {w v : Walk} {steps : List Step}
    (h : Reaches fs (w.append steps) v) (hv : v.rest = []) (hne : steps ≠ [])
    (hb : ∀ step ∈ steps, step = .blank) : fs.isDirectory v.loc := by
  obtain ⟨⟨n, loc, rest⟩, hu, -, huv⟩ := h.split hv
  obtain rfl : rest = [] := hu
  have hd : fs.isDirectory loc :=
    huv.isDirectory_of_rest_ne_nil hv (by simpa [Walk.append] using hne)
  have hstay : Reaches fs ⟨n, loc, steps⟩ ⟨n, loc, []⟩ := reaches_blanks hd hb
  have hend : ⟨n, loc, []⟩ = v := (huv.to_end hstay hv).eq_of_rest_eq_nil rfl
  exact hend ▸ hd

theorem Stride.exists_append {fs : FileSystem} {w v : Walk} (h : Stride fs w v) :
    ∃ u, v = Walk.append u w.rest.tail := by
  cases h with
  | @idle n loc step rest _ _ => exact ⟨⟨n, loc, []⟩, rfl⟩
  | @up n loc rest _ => exact ⟨⟨n, loc.tail, []⟩, rfl⟩
  | @enter n loc name entry rest _ _ _ => exact ⟨⟨n, name :: loc, []⟩, rfl⟩
  | @link n loc name target rest _ _ =>
    exact ⟨⟨n, if target.isAbsolute then [] else loc, target.steps⟩, rfl⟩

/-- A walk to a file may be for writing, as no name on it is followed by slashes alone. -/
theorem Reaches.finish_write {fs : FileSystem} {w v : Walk} (h : Reaches fs w v)
    (hv : v.rest = []) (hf : ¬ fs.isDirectory v.loc) :
    w.finish fs .write = v.finish fs .write := by
  induction h using Relation.ReflTransGen.head_induction_on with
  | refl => rfl
  | @head w x hs hx ih =>
    obtain ⟨u, rfl⟩ := hs.exists_append
    have hpasses : Purpose.write.passes w.rest.tail := by
      by_cases hslash : w.rest.tail ≠ [] ∧ ∀ step ∈ w.rest.tail, step = .blank
      · exact absurd (Reaches.isDirectory_of_blanks hx hv hslash.1 hslash.2) hf
      · simpa [Purpose.passes, Purpose.refusesSlash, Decidable.imp_iff_not_or] using hslash
    exact (hs.finish_eq hpasses).trans ih

/-- What is reached where a walk stops. A new entry is made in the place of the last name, so a
walk that is for one does not say what the path means. -/
def Arrives (fs : FileSystem) (purpose : Purpose) (w : Walk) : Stop Place → Prop
  | .done (.occupied loc) => purpose ≠ .make → ∃ n, Reaches fs w ⟨n, loc, []⟩
  | .done (.vacant dir name) => purpose.allowsVacant ∧ ∃ n rest, purpose.endsBefore rest ∧
      Reaches fs w ⟨n, dir, .name name :: rest⟩ ∧ fs.isDirectory dir ∧
      fs.get? (name :: dir) = none
  | .done (.removed _) => False
  | .link dir target rest => ∃ name, Reaches fs w ⟨w.links, dir, .name name :: rest⟩ ∧
      fs.isDirectory dir ∧ fs.get? (name :: dir) = some (.link target)

theorem Arrives.of_reaches {fs : FileSystem} {purpose : Purpose} {w v : Walk} {place : Place}
    (h : Arrives fs purpose v (.done place)) (hr : Reaches fs w v) :
    Arrives fs purpose w (.done place) := by
  match place, h with
  | .occupied loc, h =>
    intro hm
    obtain ⟨n, hv⟩ := h hm
    exact ⟨n, hr.trans hv⟩
  | .vacant dir name, ⟨ha, n, rest, he, hv, hd⟩ => exact ⟨ha, n, rest, he, hr.trans hv, hd⟩

theorem Arrives.head {fs : FileSystem} {purpose : Purpose} {w v : Walk} {stop : Stop Place}
    (h : Arrives fs purpose v stop) (hs : Stride fs w v) (hl : v.links = w.links) :
    Arrives fs purpose w stop := by
  match stop, h with
  | .done place, h => exact h.of_reaches (.single hs)
  | .link dir target rest, ⟨name, hr, hd⟩ => exact ⟨name, hl ▸ hr.head hs, hd⟩

theorem arrives_of_advance {fs : FileSystem} {purpose : Purpose} {loc : Location}
    {steps : List Step} {stop : Stop Place} (h : fs.advance purpose loc steps = .ok stop)
    (n : Nat) : Arrives fs purpose ⟨n, loc, steps⟩ stop := by
  fun_induction FileSystem.advance fs purpose loc steps with
  | case1 loc =>
    cases h
    exact fun _ => ⟨n, .refl⟩
  | case3 loc rest hd ih | case4 loc rest hd ih =>
    exact (ih h).head (.idle rfl (Decidable.not_not.mp hd)) rfl
  | case5 loc rest hd ih => exact (ih h).head (.up (Decidable.not_not.mp hd)) rfl
  | case8 loc rest hd name hr hg hv =>
    cases h
    obtain ⟨ha, he⟩ := Bool.and_eq_true_iff.mp hv
    exact ⟨ha, n, rest, he, .refl, Decidable.not_not.mp hd, hg⟩
  | case10 loc rest hd name hr entry hg hm =>
    cases h
    exact fun hp => absurd (beq_iff_eq.mp (Bool.and_eq_true_iff.mp hm).1) hp
  | case11 loc rest hd name hr hm target hg =>
    cases h
    exact ⟨name, .refl, Decidable.not_not.mp hd, hg⟩
  | case12 loc rest hd name hr entry hg hm hl ih =>
    have hl' : ¬ entry.isLink := by
      cases entry <;> simp_all [Entry.isLink]
    exact (ih h).head (.enter (Decidable.not_not.mp hd) hg hl') rfl
  | case2 | case6 | case7 | case9 => cases h

theorem arrives_of_finish {fs : FileSystem} {purpose : Purpose} {w : Walk} {place : Place}
    (h : w.finish fs purpose = .ok place) : Arrives fs purpose w (.done place) := by
  obtain ⟨n, loc, steps⟩ := w
  -- each link leads to a new walk, with one link less to follow
  induction n generalizing loc steps with
  | zero =>
    change follow (fs.advance purpose) 0 loc steps = .ok place at h
    rw [follow] at h
    split at h
    · cases h
    · next hs =>
      cases h
      exact arrives_of_advance hs 0
    · cases h
  | succ n ih =>
    change follow (fs.advance purpose) (n + 1) loc steps = .ok place at h
    rw [follow] at h
    split at h
    · cases h
    · next hs =>
      cases h
      exact arrives_of_advance hs (n + 1)
    · next dir target rest hs =>
      obtain ⟨name, hr, hd, hg⟩ := arrives_of_advance hs (n + 1)
      exact (ih _ _ h).of_reaches (hr.tail (.link hd hg))

/-- The steps that are left of a walk when it has come out of `removed` removed directories. -/
def emerge : (removed : Nat) → List Step → Option (List Step)
  | 0, steps => some steps
  | _ + 1, [] => none
  | removed + 1, step :: rest =>
    match step with
    | .blank | .here => emerge (removed + 1) rest
    | .up => emerge removed rest
    | .name _ | .unusable _ => none

theorem emerge_append {removed : Nat} {steps rest : List Step}
    (h : emerge removed steps = some rest) (more : List Step) :
    emerge removed (steps ++ more) = some (rest ++ more) := by
  fun_induction emerge removed steps with
  | case1 steps =>
    cases h
    simp [emerge]
  | case3 removed rest' ih | case4 removed rest' ih | case5 removed rest' ih =>
    rw [List.cons_append, emerge]
    exact ih h
  | case2 | case6 | case7 => cases h

/-- The walk along a path, unless the path is none that can be walked or never comes out of a
removed directory. -/
def Path.walk? (p : Path) (cwd : WorkingDirectory) : Option Walk :=
  if 0 ∈ p.bytes ∨ p.isEmpty ∨ pathLimit ≤ p.bytes.length then none
  else if p.isAbsolute then some ⟨linkLimit, [], p.steps⟩
  else (emerge cwd.removed p.steps).map (⟨linkLimit, cwd.above, ·⟩)

theorem walkOut_of_emerge {removed : Nat} {steps rest : List Step}
    (h : emerge removed steps = some rest) (fs : FileSystem) (purpose : Purpose)
    (above : Location) :
    fs.walkOut purpose above removed steps = fs.walk purpose above rest := by
  fun_induction emerge removed steps with
  | case1 steps =>
    cases h
    simp [FileSystem.walkOut]
  | case3 removed rest' ih | case4 removed rest' ih | case5 removed rest' ih =>
    rw [FileSystem.walkOut]
    exact ih h
  | case2 | case6 | case7 => cases h

theorem walkOut_of_emerge_eq_none {removed : Nat} {steps : List Step}
    (h : emerge removed steps = none) (purpose : Purpose) (above : Location) :
    (∃ dir, ∀ fs : FileSystem, fs.walkOut purpose above removed steps = .ok (.removed dir)) ∨
      ∃ errno, ∀ fs : FileSystem, fs.walkOut purpose above removed steps = .error errno := by
  fun_induction emerge removed steps with
  | case1 steps => cases h
  | case2 removed => exact .inl ⟨⟨above, removed + 1⟩, fun fs => by rw [FileSystem.walkOut]⟩
  | case3 removed rest ih | case4 removed rest ih | case5 removed rest ih =>
    simpa only [FileSystem.walkOut] using ih h
  | case6 removed rest name | case7 removed rest segment =>
    exact .inr ⟨_, fun fs => by rw [FileSystem.walkOut]⟩

theorem Path.usable_of_walk? {p : Path} {cwd : WorkingDirectory} {w : Walk}
    (h : p.walk? cwd = some w) :
    0 ∉ p.bytes ∧ p.bytes ≠ [] ∧ ¬ pathLimit ≤ p.bytes.length := by
  unfold Path.walk? at h
  split at h
  · cases h
  · next hu =>
    obtain ⟨hnul, hempty, hlen⟩ : 0 ∉ p.bytes ∧ ¬ p.isEmpty ∧ ¬ pathLimit ≤ p.bytes.length := by
      simpa only [not_or] using hu
    exact ⟨hnul, fun he => hempty (List.isEmpty_iff.mpr he), hlen⟩

theorem locate_of_walk? {p : Path} {cwd : WorkingDirectory} {w : Walk}
    (h : p.walk? cwd = some w) (fs : FileSystem) (purpose : Purpose) :
    fs.locate cwd purpose p = (w.finish fs purpose).mapError Cause.system := by
  unfold Path.walk? at h
  split at h
  · cases h
  · next hu =>
    obtain ⟨h₁, h₂, h₃⟩ : 0 ∉ p.bytes ∧ ¬ p.isEmpty ∧ ¬ pathLimit ≤ p.bytes.length := by
      simpa only [not_or] using hu
    rw [FileSystem.locate, if_neg h₁, if_neg h₂, if_neg h₃]
    split at h
    · next ha =>
      cases h
      rw [if_pos ha]
      rfl
    · next ha =>
      obtain ⟨rest, hr, rfl⟩ := Option.map_eq_some_iff.mp h
      rw [if_neg ha, walkOut_of_emerge hr]
      rfl

theorem locate_of_walk?_eq_none {p : Path} {cwd : WorkingDirectory} (h : p.walk? cwd = none)
    (purpose : Purpose) :
    (∃ dir, ∀ fs : FileSystem, fs.locate cwd purpose p = .ok (.removed dir)) ∨
      ∃ cause, ∀ fs : FileSystem, fs.locate cwd purpose p = .error cause := by
  unfold Path.walk? at h
  by_cases h₁ : 0 ∈ p.bytes
  · exact .inr ⟨_, fun fs => by rw [FileSystem.locate, if_pos h₁]⟩
  by_cases h₂ : p.isEmpty
  · exact .inr ⟨_, fun fs => by rw [FileSystem.locate, if_neg h₁, if_pos h₂]⟩
  by_cases h₃ : pathLimit ≤ p.bytes.length
  · exact .inr ⟨_, fun fs => by rw [FileSystem.locate, if_neg h₁, if_neg h₂, if_pos h₃]⟩
  rw [if_neg (by simp [h₁, h₂, h₃])] at h
  split at h
  · cases h
  · next ha =>
    have hl : ∀ fs : FileSystem, fs.locate cwd purpose p =
        (fs.walkOut purpose cwd.above cwd.removed p.steps).mapError Cause.system := fun fs => by
      rw [FileSystem.locate, if_neg h₁, if_neg h₂, if_neg h₃, if_neg ha]
    rcases walkOut_of_emerge_eq_none (Option.map_eq_none_iff.mp h) purpose cwd.above with
      ⟨dir, hw⟩ | ⟨errno, hw⟩
    · exact .inl ⟨dir, fun fs => by rw [hl, hw]; rfl⟩
    · exact .inr ⟨.system errno, fun fs => by rw [hl, hw]; rfl⟩

theorem arrives_of_locate {fs : FileSystem} {cwd : WorkingDirectory} {p : Path}
    {purpose : Purpose} {place : Place} (h : fs.locate cwd purpose p = .ok place) :
    (∃ w, p.walk? cwd = some w ∧ Arrives fs purpose w (.done place)) ∨
      ∃ dir, place = .removed dir ∧
        ∀ gs : FileSystem, gs.locate cwd purpose p = .ok (.removed dir) := by
  cases hw : p.walk? cwd with
  | none =>
    rcases locate_of_walk?_eq_none hw purpose with ⟨dir, hl⟩ | ⟨cause, hl⟩
    · rw [hl fs] at h
      cases h
      exact .inr ⟨dir, rfl, hl⟩
    · rw [hl fs] at h
      cases h
  | some w =>
    rw [locate_of_walk? hw] at h
    cases hf : w.finish fs purpose with
    | error errno => rw [hf] at h; cases h
    | ok place' =>
      rw [hf] at h
      cases h
      exact .inl ⟨w, rfl, arrives_of_finish hf⟩

/-- A path means an entry of the tree if and only if its walk reaches that entry. -/
theorem locate_find_eq_occupied_iff {fs : FileSystem} {cwd : WorkingDirectory} {p : Path}
    {loc : Location} :
    fs.locate cwd .find p = .ok (.occupied loc) ↔
      ∃ w n, p.walk? cwd = some w ∧ Reaches fs w ⟨n, loc, []⟩ := by
  constructor
  · intro h
    rcases arrives_of_locate h with ⟨w, hw, hr⟩ | ⟨dir, hp, -⟩
    · obtain ⟨n, hr⟩ := hr (by decide)
      exact ⟨w, n, hw, hr⟩
    · cases hp
  · rintro ⟨w, n, hw, hr⟩
    rw [locate_of_walk? hw, hr.finish_find, Walk.finish_nil]
    rfl

theorem locate_find_cases {fs : FileSystem} {cwd : WorkingDirectory} {p : Path} {place : Place}
    (h : fs.locate cwd .find p = .ok place) :
    (∃ loc, place = .occupied loc) ∨
      ∃ dir, place = .removed dir ∧
        ∀ gs : FileSystem, gs.locate cwd .find p = .ok (.removed dir) := by
  rcases arrives_of_locate h with ⟨w, hw, hr⟩ | hp
  · match place, hr with
    | .occupied loc, _ => exact .inl ⟨loc, rfl⟩
    | .vacant _ _, ⟨ha, _⟩ => cases ha
  · exact .inr hp

end MarkerCopy
