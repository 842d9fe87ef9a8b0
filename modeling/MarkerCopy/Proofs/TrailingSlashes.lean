import MarkerCopy.Proofs.Ancestors
import MarkerCopy.Proofs.Execution
import Mathlib.Data.List.Basic
import Mathlib.Data.List.TakeWhile

/-! Slashes at the end of a path. A path to a file means nothing when slashes are added to it, but
no directory can be made under it either. -/

namespace MarkerCopy

open FileSystem

namespace Path

/-- A path without the slashes at its end. -/
def trimmed (p : Path) : Path :=
  ⟨(p.bytes.reverse.dropWhile (· == slash)).reverse⟩

theorem bytes_eq_trimmed (p : Path) :
    ∃ k, p.bytes = p.trimmed.bytes ++ List.replicate k slash := by
  have hsplit := List.takeWhile_append_dropWhile (p := (· == slash)) (l := p.bytes.reverse)
  have hslashes : p.bytes.reverse.takeWhile (· == slash) =
      List.replicate (p.bytes.reverse.takeWhile (· == slash)).length slash :=
    List.eq_replicate_of_mem fun b hb => by simpa using List.mem_takeWhile_imp hb
  refine ⟨(p.bytes.reverse.takeWhile (· == slash)).length, ?_⟩
  rw [← List.reverse_inj, List.reverse_append, trimmed, List.reverse_reverse,
    List.reverse_replicate, ← hslashes, hsplit]

theorem getLast?_trimmed (p : Path) : p.trimmed.bytes.getLast? ≠ some slash := by
  intro h
  have hhead := List.head?_dropWhile_not (· == slash) p.bytes.reverse
  rw [trimmed, List.getLast?_reverse] at h
  rw [h] at hhead
  simp at hhead

theorem trimmed_cases (p : Path) :
    p.bytes.getLast? ≠ some slash ∧ p.trimmed = p ∨
      p.bytes.getLast? = some slash ∧
        ∃ k, p.bytes = p.trimmed.bytes ++ List.replicate (k + 1) slash := by
  obtain ⟨k, hk⟩ := p.bytes_eq_trimmed
  cases k with
  | zero =>
    have he : p.trimmed = p := by
      rw [List.replicate_zero, List.append_nil] at hk
      exact congrArg Path.mk hk.symm
    exact .inl ⟨he ▸ p.getLast?_trimmed, he⟩
  | succ k =>
    refine .inr ⟨?_, k, hk⟩
    rw [hk, List.replicate_succ', ← List.append_assoc, List.getLast?_concat]

theorem steps_slashes_append (k : Nat) (rest : List UInt8) :
    (Path.mk (List.replicate k slash ++ rest)).steps =
      List.replicate k .blank ++ (Path.mk rest).steps := by
  induction k with
  | zero => rfl
  | succ k ih =>
    have hsplit := steps_append ⟨[]⟩ (List.replicate k slash ++ rest)
    rw [ih] at hsplit
    exact hsplit

theorem steps_slashes (k : Nat) :
    (Path.mk (List.replicate k slash)).steps = List.replicate (k + 1) .blank := by
  have h := steps_slashes_append k []
  rw [List.append_nil] at h
  rw [h, List.replicate_succ']
  rfl

theorem walk?_append_slashes {p q : Path} {cwd : WorkingDirectory} {w : Walk} {k : Nat}
    (h : p.walk? cwd = some w) (hq : q.bytes = p.bytes ++ List.replicate k slash)
    (hlen : ¬ pathLimit ≤ q.bytes.length) :
    q.walk? cwd = some (w.append (List.replicate k .blank)) := by
  cases k with
  | zero =>
    obtain rfl : q = p := congrArg Path.mk (by simpa using hq)
    simpa [Walk.append] using h
  | succ k =>
    obtain ⟨hnul, -, -⟩ := usable_of_walk? h
    have hslash : (0 : UInt8) ≠ slash := by decide
    have hnul' : 0 ∉ q.bytes := by simp [hq, hnul, hslash]
    rw [walk?_append h hq hnul' hlen, steps_slashes]

end Path

/-- The last step on the way to a file is its name or that of a link. -/
theorem Reaches.last_name {fs : FileSystem} {w v : Walk} {step : Step}
    (h : Reaches fs (w.append [step]) v) (hv : v.rest = []) (hf : ¬ fs.isDirectory v.loc) :
    ∃ u name entry, u.rest = [] ∧ Reaches fs w u ∧ step = .name name ∧ fs.isDirectory u.loc ∧
      fs.get? (name :: u.loc) = some entry := by
  obtain ⟨⟨n, dir, rest⟩, hu, hwu, huv⟩ := h.split hv
  obtain rfl : rest = [] := hu
  rcases Relation.ReflTransGen.cases_head huv with rfl | ⟨x, hs, hx⟩
  · simp [Walk.append] at hv
  · simp only [Walk.append, List.nil_append] at hs
    cases hs with
    | idle _ hd =>
      obtain rfl := Reaches.eq_of_rest_eq_nil hx rfl
      exact absurd hd hf
    | up hd =>
      obtain rfl := Reaches.eq_of_rest_eq_nil hx rfl
      exact absurd (isDirectory_of_suffix (List.tail_suffix dir) hd) hf
    | enter hd hg hl => exact ⟨_, _, _, rfl, hwu, rfl, hd, hg⟩
    | link hd hg => exact ⟨_, _, _, rfl, hwu, rfl, hd, hg⟩

theorem advance_make_name {fs : FileSystem} {dir : Location} {name : Name} {entry : Entry}
    (hd : fs.isDirectory dir) (hg : fs.get? (name :: dir) = some entry) (k : Nat) :
    fs.advance .make dir (.name name :: List.replicate k .blank) =
      .ok (.done (.occupied (name :: dir))) := by
  have he : Purpose.make.endsBefore (List.replicate k .blank) := by simp [Purpose.endsBefore]
  have hr : Purpose.make.refusesSlash (List.replicate k .blank) = false := rfl
  simp [advance, hd, hg, he, hr]

/-- No entry can be made under the name of a file, with slashes after it or without. -/
theorem Reaches.finish_make {fs : FileSystem} {w v : Walk} (h : Reaches fs w v)
    (hv : v.rest = []) (hw : fs.isDirectory w.loc) (hf : ¬ fs.isDirectory v.loc) (k : Nat) :
    ∃ loc, (w.append (List.replicate k .blank)).finish fs .make = .ok (.occupied loc) := by
  obtain ⟨n, start, steps⟩ := w
  rcases List.eq_nil_or_concat' steps with rfl | ⟨init, step, rfl⟩
  · obtain rfl := h.eq_of_rest_eq_nil rfl
    exact absurd hw hf
  · -- before its last step the walk goes as one that only looks
    have hlast : Reaches fs ((Walk.mk n start init).append [step]) v := h
    obtain ⟨⟨m, dir, rest⟩, name, entry, hu, hwu, rfl, hd, hg⟩ := hlast.last_name hv hf
    obtain rfl : rest = [] := hu
    refine ⟨name :: dir, ?_⟩
    calc
      (Walk.append ⟨n, start, init ++ [.name name]⟩ (List.replicate k .blank)).finish fs .make
        = ((Walk.mk n start init).append (.name name :: List.replicate k .blank)).finish fs
            .make := by simp [Walk.append]
      _ = ((Walk.mk m dir []).append (.name name :: List.replicate k .blank)).finish fs .make :=
          hwu.finish_append List.mem_cons_self (by simp)
      _ = .ok (.occupied (name :: dir)) := by
          simp [Walk.append, Walk.finish, follow, advance_make_name hd hg]

theorem Walk.finish_of_not_isDirectory {fs : FileSystem} {n : Nat} {loc : Location} {step : Step}
    {rest : List Step} (h : ¬ fs.isDirectory loc) (purpose : Purpose) :
    ∃ errno, (Walk.mk n loc (step :: rest)).finish fs purpose = .error errno := by
  unfold Walk.finish follow advance
  exact ⟨_, by rw [if_pos h]⟩

namespace FileSystem

variable {fs : FileSystem} {cwd : WorkingDirectory} {p q : Path} {loc : Location} {k : Nat}

theorem locate_append_slashes (fs : FileSystem) {w : Walk} (hw : p.walk? cwd = some w)
    (hq : q.bytes = p.bytes ++ List.replicate k Path.slash) (purpose : Purpose) :
    fs.locate cwd purpose q =
      if pathLimit ≤ q.bytes.length then .error (.system .nameTooLong)
      else ((w.append (List.replicate k .blank)).finish fs purpose).mapError Cause.system := by
  split
  · next hlen =>
    obtain ⟨hnul, hne, -⟩ := Path.usable_of_walk? hw
    have hslash : (0 : UInt8) ≠ Path.slash := by decide
    have hnul' : 0 ∉ q.bytes := by simp [hq, hnul, hslash]
    have hempty : ¬ q.isEmpty := by simp [Path.isEmpty, hq, hne]
    rw [locate, if_neg hnul', if_neg hempty, if_pos hlen]
  · next hlen => exact locate_of_walk? (Path.walk?_append_slashes hw hq hlen) fs purpose

theorem kind?_append_slashes (hl : fs.locate cwd .find p = .ok (.occupied loc))
    (hf : ¬ fs.isDirectory loc) (hq : q.bytes = p.bytes ++ List.replicate (k + 1) Path.slash) :
    fs.kind? cwd q = none := by
  obtain ⟨w, n, hw, hr⟩ := locate_find_eq_occupied_iff.mp hl
  have hstop : ∃ errno, (Walk.mk n loc (List.replicate (k + 1) .blank)).finish fs .find =
      .error errno := Walk.finish_of_not_isDirectory hf .find
  obtain ⟨errno, hstop⟩ := hstop
  have hgo := (hr.append (List.replicate (k + 1) .blank)).finish_find.trans hstop
  have hq' := locate_append_slashes fs hw hq .find
  rw [hgo] at hq'
  unfold kind?
  rw [hq']
  by_cases hlen : pathLimit ≤ q.bytes.length
  · rw [if_pos hlen]
  · rw [if_neg hlen]
    rfl

theorem makeDirectory_append_slashes (hc : fs.isDirectory cwd.above)
    (hl : fs.locate cwd .find p = .ok (.occupied loc)) (hf : ¬ fs.isDirectory loc)
    (hq : q.bytes = p.bytes ++ List.replicate k Path.slash) :
    fs.makeDirectory cwd q =
      (.error (.system (if pathLimit ≤ q.bytes.length then .nameTooLong else .alreadyExists)),
        fs) := by
  obtain ⟨w, n, hw, hr⟩ := locate_find_eq_occupied_iff.mp hl
  obtain ⟨loc', hmake⟩ := hr.finish_make rfl (Path.isDirectory_of_walk? hw hc) hf k
  unfold makeDirectory make
  rw [locate_append_slashes fs hw hq, hmake]
  by_cases hlen : pathLimit ≤ q.bytes.length
  · simp only [if_pos hlen]
  · simp only [if_neg hlen]
    rfl

theorem makeDirectories_append_slashes (hc : fs.isDirectory cwd.above)
    (hl : fs.locate cwd .find p = .ok (.occupied loc)) (hf : ¬ fs.isDirectory loc)
    (hq : q.bytes = p.bytes ++ List.replicate (k + 1) Path.slash) :
    ((disk cwd).makeDirectories q).run fs =
      (.error (.system (if pathLimit ≤ q.bytes.length then .nameTooLong else .alreadyExists)),
        fs) := by
  have hmake := makeDirectory_append_slashes hc hl hf hq
  have hempty : ¬ q.isEmpty := by simp [Path.isEmpty, hq]
  have hother : (fs.makeDirectory cwd q).1 ≠ .error (.system .noEntry) := by
    rw [hmake]
    dsimp only
    split <;> decide
  have hkind : fs.kind? cwd q ≠ some .directory := by
    simp [kind?_append_slashes hl hf hq]
  exact (makeBelow_eq_ensureDirectory hempty hother).trans (ensureDirectory_of_error hmake hkind)

end FileSystem

end MarkerCopy
