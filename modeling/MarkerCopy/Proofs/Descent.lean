import MarkerCopy.Proofs.Ancestors
import MarkerCopy.Proofs.Delivery
import MarkerCopy.Proofs.TrailingSlashes
import Mathlib.Data.List.Infix

/-! Paths that go down from a directory by names alone. If nothing but directories is in the way,
all that is missing on it can be made, and a file can be put below it. -/

namespace MarkerCopy

open FileSystem

theorem Step.ofSegment_bytes (name : Name) : Step.ofSegment name.bytes = .name name := by
  obtain ⟨hne, hdot, hdots, -⟩ := name.valid
  unfold ofSegment
  rw [if_neg hne, if_neg hdot, if_neg hdots, dif_pos name.valid]

theorem Step.isIdle_ofSegment {segment : List UInt8} (h : Path.isIdle segment) :
    (ofSegment segment).isIdle := by
  obtain rfl | rfl : segment = [] ∨ segment = [Path.dot] := by simpa [Path.isIdle] using h
  · rfl
  · rfl

theorem Step.ofSegment_cases {segment : List UInt8} (h : ¬ Path.isIdle segment)
    (hd : segment ≠ [Path.dot, Path.dot]) :
    (∃ name : Name, segment = name.bytes ∧ ofSegment segment = .name name) ∨
      ofSegment segment = .unusable segment := by
  obtain ⟨hempty, hdot⟩ : segment ≠ [] ∧ segment ≠ [Path.dot] := by simpa [Path.isIdle] using h
  unfold ofSegment
  rw [if_neg hempty, if_neg hdot, if_neg hd]
  split
  · next hv => exact .inl ⟨⟨segment, hv⟩, rfl, rfl⟩
  · exact .inr rfl

namespace Location

/-- The names from the top down, with a slash between neighbours. -/
def relativeText (loc : Location) : List UInt8 :=
  loc.text.tail

theorem text_eq_cons {loc : Location} (h : loc ≠ []) :
    loc.text = Path.slash :: loc.relativeText := by
  rw [relativeText, text_eq h]
  rfl

theorem relativeText_singleton (name : Name) : relativeText [name] = name.bytes := rfl

theorem relativeText_cons {dir : Location} (name : Name) (h : dir ≠ []) :
    relativeText (name :: dir) = dir.relativeText ++ Path.slash :: name.bytes := by
  rw [relativeText, text, text_eq_cons h]
  rfl

theorem not_mem_zero_relativeText (loc : Location) : 0 ∉ loc.relativeText := by
  have htext : 0 ∉ loc.text := by
    induction loc with
    | nil => simp [text]
    | cons name dir ih =>
      have hslash : (0 : UInt8) ≠ Path.slash := by decide
      have hname : 0 ∉ name.bytes := name.valid.2.2.2.2.1
      simp [text, ih, hslash, hname]
  exact fun hm => htext (List.mem_of_mem_tail hm)

theorem segments_relativeText {loc : Location} (h : loc ≠ []) :
    (Path.mk loc.relativeText).segments = (loc.map Name.bytes).reverse := by
  have hp := pieces_text loc
  rw [text_eq_cons h] at hp
  exact (List.cons.inj hp).2

theorem steps_relativeText {loc : Location} (h : loc ≠ []) :
    (Path.mk loc.relativeText).steps = loc.reverse.map Step.name := by
  simp [Path.steps, segments_relativeText h, Step.ofSegment_bytes, Function.comp_def]

end Location

namespace Path

/-- The path that goes on from `root` with the names of a location. -/
def below (root : List UInt8) (loc : Location) : Path :=
  ⟨root ++ loc.relativeText⟩

section

variable {p : Path} {segment : List UInt8}

theorem lead_append_slash (hp : p.bytes ≠ []) (segment : List UInt8) :
    (Path.mk (p.bytes ++ slash :: segment)).lead = p.lead := by
  obtain ⟨_ | ⟨b, rest⟩⟩ := p
  · exact absurd rfl hp
  · cases rest <;> simp [lead]

theorem body_append_slash (hp : p.bytes ≠ []) (hs : slash ∉ segment) :
    (Path.mk (p.bytes ++ slash :: segment)).body = p.body ++ [segment] := by
  have hlen : p.lead.length ≤ p.bytes.length := p.lead_prefix.length_le
  rw [body, lead_append_slash hp, List.drop_append_of_le_length hlen, pieces_append_cons,
    pieces_of_not_mem hs]
  rfl

theorem body_of_last (hp : ∃ start, p.bytes = start ++ slash :: segment) (hs : slash ∉ segment) :
    ∃ init, p.body = init ++ [segment] := by
  obtain ⟨start, hstart⟩ := hp
  obtain rfl : p = ⟨start ++ slash :: segment⟩ := congrArg Path.mk hstart
  by_cases hne : start = []
  · subst hne
    have hbody : (Path.mk (slash :: segment)).body = pieces slash segment := rfl
    exact ⟨[], by rw [List.nil_append, hbody, pieces_of_not_mem hs, List.nil_append]⟩
  · exact ⟨_, body_append_slash (p := ⟨start⟩) hne hs⟩

/-- The nearest path above is the whole path before the last slash, unless that ends in something
idle. -/
theorem ancestors_append_slash {init : List (List UInt8)} {last : List UInt8}
    (hb : p.body = init ++ [last]) (hl : ¬ isIdle last) (hp : p.bytes ≠ [])
    (hs : slash ∉ segment) (hi : ¬ isIdle segment) :
    (Path.mk (p.bytes ++ slash :: segment)).ancestors = p :: p.ancestors := by
  have hup : upTo p.lead p.body.reverse = p := by
    have hkeep : (p.body.reverse.dropWhile isIdle).reverse = p.body := by
      rw [hb, List.reverse_append, List.reverse_singleton, List.singleton_append,
        List.dropWhile_cons_of_neg hl, List.reverse_cons, List.reverse_reverse]
    rw [upTo, hkeep, p.lead_append_body]
  have hbody : (Path.mk (p.bytes ++ slash :: segment)).body.reverse =
      segment :: p.body.reverse := by
    rw [body_append_slash hp hs, List.reverse_append]
    rfl
  rw [ancestors, lead_append_slash hp, hbody, above, if_neg hi, hup]
  rfl

end

section

variable {root : List UInt8} {dir : Location} {name : Name}

theorem below_cons (root : List UInt8) (name : Name) (h : dir ≠ []) :
    below root (name :: dir) = ⟨(below root dir).bytes ++ slash :: name.bytes⟩ := by
  rw [below, below, Location.relativeText_cons name h, ← List.append_assoc]

theorem length_below_le (root : List UInt8) (name : Name) (dir : Location) :
    (below root dir).bytes.length ≤ (below root (name :: dir)).bytes.length := by
  by_cases hd : dir = []
  · simp [hd, below, Location.relativeText, Location.text]
  · rw [below_cons root name hd, List.length_append]
    omega

theorem exists_last_of_below (hr : root.getLast? = some slash) (name : Name) (dir : Location) :
    ∃ start, (below root (name :: dir)).bytes = start ++ slash :: name.bytes := by
  by_cases hd : dir = []
  · obtain ⟨start, rfl⟩ := List.getLast?_eq_some_iff.mp hr
    exact ⟨start, by simp [below, hd, Location.relativeText_singleton]⟩
  · exact ⟨_, congrArg Path.bytes (below_cons root name hd)⟩

theorem ancestors_below (hr : root.getLast? = some slash) (name : Name) (hd : dir ≠ []) :
    (below root (name :: dir)).ancestors = below root dir :: (below root dir).ancestors := by
  obtain ⟨last, above, rfl⟩ := List.exists_cons_of_ne_nil hd
  obtain ⟨start, hstart⟩ := exists_last_of_below hr last above
  obtain ⟨init, hinit⟩ := body_of_last ⟨start, hstart⟩ last.valid.2.2.2.1
  have hne : (below root (last :: above)).bytes ≠ [] := by simp [hstart]
  rw [below_cons root name hd]
  exact ancestors_append_slash hinit (Location.not_isIdle last) hne name.valid.2.2.2.1
    (Location.not_isIdle name)

end

end Path

theorem emerge_concat_blank {removed : Nat} {steps left : List Step}
    (h : emerge removed (steps ++ [.blank]) = some left) :
    ∃ rest, emerge removed steps = some rest ∧ left = rest ++ [.blank] := by
  fun_induction emerge removed steps with
  | case1 steps =>
    simp only [emerge, Option.some.injEq] at h
    exact ⟨steps, rfl, h.symm⟩
  | case2 removed => simp [emerge] at h
  | case3 removed rest ih | case4 removed rest ih | case5 removed rest ih =>
    rw [List.cons_append, emerge] at h
    exact ih h
  | case6 | case7 => simp [emerge] at h

namespace Path

/-- The walk along a path that ends in a slash begins the walk along whatever goes on from it. -/
theorem walk?_of_last_slash {p : Path} {cwd : WorkingDirectory} {v : Walk}
    (hs : p.bytes.getLast? = some slash) (hw : p.walk? cwd = some v) :
    ∃ w : Walk, v = w.append [.blank] ∧ ∀ rest, 0 ∉ rest →
      (p.bytes ++ rest).length < pathLimit →
        (Path.mk (p.bytes ++ rest)).walk? cwd = some (w.append (Path.mk rest).steps) := by
  obtain ⟨start, hstart⟩ := List.getLast?_eq_some_iff.mp hs
  obtain rfl : p = ⟨start ++ [slash]⟩ := congrArg Path.mk hstart
  have hsteps (rest : List UInt8) : (Path.mk (start ++ [slash] ++ rest)).steps =
      (Path.mk start).steps ++ (Path.mk rest).steps := by
    rw [List.append_assoc, List.singleton_append]
    exact steps_append ⟨start⟩ rest
  have habs (rest : List UInt8) : (Path.mk (start ++ [slash] ++ rest)).isAbsolute =
      (Path.mk (start ++ [slash])).isAbsolute := by
    cases start <;> rfl
  obtain ⟨hnul, -, -⟩ := usable_of_walk? hw
  have husable (rest : List UInt8) (hr : 0 ∉ rest)
      (hlen : (start ++ [slash] ++ rest).length < pathLimit) :
      ¬ (0 ∈ start ++ [slash] ++ rest ∨ (Path.mk (start ++ [slash] ++ rest)).isEmpty ∨
        pathLimit ≤ (start ++ [slash] ++ rest).length) := by
    simp only [not_or]
    refine ⟨?_, by simp [isEmpty], by omega⟩
    simp_all
  unfold walk? at hw
  split at hw
  · cases hw
  · split at hw
    · next ha =>
      cases hw
      refine ⟨⟨linkLimit, [], (Path.mk start).steps⟩, ?_, ?_⟩
      · have h := hsteps []
        rw [List.append_nil] at h
        rw [h]
        rfl
      · intro rest hr hlen
        unfold walk?
        rw [if_neg (husable rest hr hlen), if_pos ((habs rest).trans ha), hsteps]
        rfl
    · next ha =>
      obtain ⟨left, hl, rfl⟩ := Option.map_eq_some_iff.mp hw
      have h := hsteps []
      rw [List.append_nil] at h
      have hblank : (Path.mk []).steps = [.blank] := rfl
      rw [h, hblank] at hl
      obtain ⟨kept, hk, rfl⟩ := emerge_concat_blank hl
      refine ⟨⟨linkLimit, cwd.above, kept⟩, rfl, ?_⟩
      intro rest hr hlen
      unfold walk?
      rw [if_neg (husable rest hr hlen), habs rest, if_neg ha, hsteps, emerge_append hk]
      rfl

end Path

namespace FileSystem

/-- The paths that begin with `root` come to the directory `base` before they go on. -/
structure Entrance (fs : FileSystem) (cwd : WorkingDirectory) (root : List UInt8)
    (base : Location) : Prop where
  isDirectory : fs.isDirectory base
  walks : ∃ w n, Reaches fs w ⟨n, base, []⟩ ∧ ∀ rest, 0 ∉ rest →
    (root ++ rest).length < pathLimit →
      (Path.mk (root ++ rest)).walk? cwd = some (w.append (Path.mk rest).steps)

section

variable {fs gs : FileSystem} {cwd : WorkingDirectory} {root : List UInt8} {base dir : Location}
  {name : Name}

theorem entrance_of_locate {p : Path} {k : Nat}
    (hl : fs.locate cwd .find p = .ok (.occupied base)) (hd : fs.isDirectory base)
    (hr : root = p.bytes ++ List.replicate k Path.slash) (hs : root.getLast? = some Path.slash)
    (hlen : root.length < pathLimit) : fs.Entrance cwd root base := by
  obtain ⟨v, m, hv, hreach⟩ := locate_find_eq_occupied_iff.mp hl
  have hroot : (Path.mk root).walk? cwd = some (v.append (List.replicate k .blank)) :=
    Path.walk?_append_slashes hv hr (by simpa using hlen)
  obtain ⟨w, hw, hwalks⟩ := Path.walk?_of_last_slash hs hroot
  have hblanks : Reaches fs ⟨m, base, List.replicate k .blank⟩ ⟨m, base, []⟩ :=
    reaches_blanks hd (by simp)
  have hend : Reaches fs (w.append [.blank]) ⟨m, base, []⟩ := by
    rw [← hw]
    exact (hreach.append _).trans hblanks
  obtain ⟨⟨n, loc, left⟩, hu, hwu, huv⟩ := hend.split rfl
  obtain rfl : left = [] := hu
  -- the slash at the end of the root stays in the directory
  have hdir : fs.isDirectory loc := huv.isDirectory_of_rest_ne_nil rfl (by simp [Walk.append])
  have hstay : Reaches fs ⟨n, loc, [.blank]⟩ ⟨n, loc, []⟩ := reaches_blanks hdir (by simp)
  have hsame := (huv.to_end hstay rfl).eq_of_rest_eq_nil rfl
  cases hsame
  exact ⟨hd, w, _, hwu, hwalks⟩

theorem Entrance.mono (h : fs.Entrance cwd root base) (hg : fs.Grows gs) :
    gs.Entrance cwd root base := by
  obtain ⟨w, n, hr, hwalks⟩ := h.walks
  exact ⟨hg.isDirectory h.isDirectory, w, n, hr.mono hg, hwalks⟩

theorem get?_ne_none_of_isDirectory (h : fs.isDirectory dir) : fs.get? dir ≠ none := by
  obtain ⟨permissions, hg⟩ := isDirectory_iff.mp h
  simp [hg]

theorem Entrance.ne_nil_of_missing (h : fs.Entrance cwd root base)
    (hn : fs.get? (dir ++ base) = none) : dir ≠ [] := by
  rintro rfl
  exact get?_ne_none_of_isDirectory h.isDirectory hn

/-- Whether nothing but directories is in the way to a location, which may be missing itself. -/
def Unobstructed (fs : FileSystem) (loc : Location) : Prop :=
  ∀ above, above <:+ loc → fs.get? above = none ∨ fs.isDirectory above

instance (fs : FileSystem) (loc : Location) : Decidable (fs.Unobstructed loc) :=
  decidable_of_iff (∀ above ∈ loc.tails, fs.get? above = none ∨ fs.isDirectory above) (by
    simp only [List.mem_tails, Unobstructed])

theorem Unobstructed.of_suffix {loc above : Location} (h : fs.Unobstructed loc)
    (hs : above <:+ loc) : fs.Unobstructed above :=
  fun other ho => h other (ho.trans hs)

theorem Unobstructed.isDirectory {loc : Location} (h : fs.Unobstructed loc)
    (hg : fs.get? loc ≠ none) : fs.isDirectory loc :=
  (h loc List.suffix_rfl).resolve_left hg

theorem Entrance.walk? (h : fs.Entrance cwd root base) {loc : Location} (hne : loc ≠ [])
    (hlen : (Path.below root loc).bytes.length < pathLimit) :
    ∃ w n, Reaches fs w ⟨n, base, []⟩ ∧
      (Path.below root loc).walk? cwd = some (w.append (loc.reverse.map .name)) := by
  obtain ⟨w, n, hr, hwalks⟩ := h.walks
  refine ⟨w, n, hr, ?_⟩
  rw [← Location.steps_relativeText hne]
  exact hwalks _ loc.not_mem_zero_relativeText hlen

theorem reaches_below {w : Walk} {n : Nat} (hr : Reaches fs w ⟨n, base, []⟩)
    (hd : fs.isDirectory (dir ++ base)) :
    Reaches fs (w.append (dir.reverse.map .name)) ⟨n, dir ++ base, []⟩ := by
  induction dir with
  | nil => simpa [Walk.append] using hr
  | cons name dir ih =>
    obtain ⟨permissions, hg⟩ := isDirectory_iff.mp hd
    have habove : fs.isDirectory (dir ++ base) :=
      isDirectory_of_get?_cons (Option.isSome_of_eq_some hg)
    have hname := (ih habove).append [.name name]
    have henter : Stride fs ⟨n, dir ++ base, [.name name]⟩ ⟨n, name :: dir ++ base, []⟩ :=
      .enter habove hg (by simp [Entry.isLink])
    simpa [Walk.append] using hname.tail henter

theorem finish_free {purpose : Purpose} {n : Nat} {rest : List Step} (hd : fs.isDirectory dir)
    (hn : fs.get? (name :: dir) = none) (hr : purpose.refusesSlash rest = false) :
    (Walk.mk n dir (.name name :: rest)).finish fs purpose =
      if purpose.allowsVacant && purpose.endsBefore rest then .ok (.vacant dir name)
      else .error .noEntry := by
  have ha : fs.advance purpose dir (.name name :: rest) =
      if purpose.allowsVacant && purpose.endsBefore rest then .ok (.done (.vacant dir name))
      else .error .noEntry := by
    simp [advance, hd, hn, hr]
  unfold Walk.finish follow
  rw [ha]
  by_cases hv : (purpose.allowsVacant && purpose.endsBefore rest)
  · simp only [if_pos hv]
  · simp only [if_neg hv]

/-- No walk gets any further than the first name that is missing. -/
theorem finish_missing {purpose : Purpose} {w : Walk} {n : Nat} {step : Step} {steps : List Step}
    (hr : Reaches fs w ⟨n, base, []⟩) (hb : fs.isDirectory base)
    (ho : fs.Unobstructed (dir ++ base)) (hn : fs.get? (dir ++ base) = none)
    (hm : step ∈ steps) (hs : step ≠ .blank) :
    (w.append (dir.reverse.map .name ++ steps)).finish fs purpose = .error .noEntry := by
  induction dir generalizing step steps with
  | nil => exact absurd hn (get?_ne_none_of_isDirectory hb)
  | cons name dir ih =>
    have hsplit : (name :: dir).reverse.map Step.name ++ steps =
        dir.reverse.map Step.name ++ .name name :: steps := by simp
    have habove : fs.Unobstructed (dir ++ base) := ho.of_suffix (List.suffix_cons name _)
    rw [hsplit]
    by_cases hg : fs.get? (dir ++ base) = none
    · exact ih habove hg List.mem_cons_self (by simp)
    · have hd : fs.isDirectory (dir ++ base) := habove.isDirectory hg
      have hslash : purpose.refusesSlash steps = false :=
        (passes_iff.mp (passes_of_mem hm hs purpose)).1
      calc
        (w.append (dir.reverse.map .name ++ .name name :: steps)).finish fs purpose
          = ((w.append (dir.reverse.map .name)).append (.name name :: steps)).finish fs
              purpose := by
            simp [Walk.append]
        _ = ((Walk.mk n (dir ++ base) []).append (.name name :: steps)).finish fs purpose :=
            (reaches_below hr hd).finish_append List.mem_cons_self (by simp)
        _ = .error .noEntry := by
            rw [Walk.append, List.nil_append, finish_free hd hn hslash,
              endsBefore_of_mem hm hs, Bool.and_false, if_neg Bool.false_ne_true]

/-- A path leads to whatever is in its place, unless that is a link. -/
theorem Entrance.locate_find {entry : Entry} (h : fs.Entrance cwd root base)
    (hg : fs.get? (dir ++ base) = some entry) (hl : ¬ entry.isLink)
    (hlen : (Path.below root dir).bytes.length < pathLimit) :
    fs.locate cwd .find (Path.below root dir) = .ok (.occupied (dir ++ base)) := by
  cases dir with
  | nil =>
    obtain ⟨w, n, hr, hwalks⟩ := h.walks
    have hstay : Reaches fs ⟨n, base, [.blank]⟩ ⟨n, base, []⟩ :=
      reaches_blanks h.isDirectory (by simp)
    exact locate_find_eq_occupied_iff.mpr
      ⟨_, n, hwalks [] (by simp) hlen, (hr.append [.blank]).trans hstay⟩
  | cons name dir =>
    have hd : fs.isDirectory (dir ++ base) := isDirectory_of_get?_cons (Option.isSome_of_eq_some hg)
    obtain ⟨w, n, hr, hw⟩ := h.walk? (List.cons_ne_nil name dir) hlen
    have henter : Stride fs ⟨n, dir ++ base, [.name name]⟩ ⟨n, name :: dir ++ base, []⟩ :=
      .enter hd hg hl
    have hgo := ((reaches_below hr hd).append [.name name]).tail henter
    refine locate_find_eq_occupied_iff.mpr ⟨_, n, hw, ?_⟩
    simpa [Walk.append] using hgo

theorem Entrance.locate_free (h : fs.Entrance cwd root base) (hd : fs.isDirectory (dir ++ base))
    (hn : fs.get? (name :: dir ++ base) = none)
    (hlen : (Path.below root (name :: dir)).bytes.length < pathLimit) (purpose : Purpose) :
    fs.locate cwd purpose (Path.below root (name :: dir)) =
      if purpose.allowsVacant then .ok (.vacant (dir ++ base) name)
      else .error (.system .noEntry) := by
  obtain ⟨w, n, hr, hw⟩ := h.walk? (List.cons_ne_nil name dir) hlen
  have hslash : purpose.refusesSlash [] = false := by simp [Purpose.refusesSlash]
  have hends : purpose.endsBefore [] = true := rfl
  have hfinish : (w.append ((name :: dir).reverse.map .name)).finish fs purpose =
      if purpose.allowsVacant then .ok (.vacant (dir ++ base) name) else .error .noEntry := by
    calc
      (w.append ((name :: dir).reverse.map .name)).finish fs purpose
        = ((w.append (dir.reverse.map .name)).append [.name name]).finish fs purpose := by
          simp [Walk.append]
      _ = ((Walk.mk n (dir ++ base) []).append [.name name]).finish fs purpose :=
          (reaches_below hr hd).finish_append List.mem_cons_self (by simp)
      _ = _ := by
          rw [Walk.append, List.nil_append, finish_free hd hn hslash, hends, Bool.and_true]
  rw [locate_of_walk? hw, hfinish]
  split <;> rfl

theorem Entrance.locate_missing (h : fs.Entrance cwd root base)
    (ho : fs.Unobstructed (dir ++ base)) (hn : fs.get? (dir ++ base) = none)
    (hlen : (Path.below root (name :: dir)).bytes.length < pathLimit) (purpose : Purpose) :
    fs.locate cwd purpose (Path.below root (name :: dir)) = .error (.system .noEntry) := by
  obtain ⟨w, n, hr, hw⟩ := h.walk? (List.cons_ne_nil name dir) hlen
  have hsplit : (name :: dir).reverse.map Step.name = dir.reverse.map .name ++ [.name name] := by
    simp
  have hstop : (w.append (dir.reverse.map .name ++ [.name name])).finish fs purpose =
      .error .noEntry :=
    finish_missing hr h.isDirectory ho hn (List.mem_singleton_self _) (by simp)
  rw [locate_of_walk? hw, hsplit, hstop]
  rfl

theorem Entrance.locate_make {entry : Entry} (h : fs.Entrance cwd root base)
    (hg : fs.get? (name :: dir ++ base) = some entry)
    (hlen : (Path.below root (name :: dir)).bytes.length < pathLimit) :
    fs.locate cwd .make (Path.below root (name :: dir)) =
      .ok (.occupied (name :: dir ++ base)) := by
  have hd : fs.isDirectory (dir ++ base) := isDirectory_of_get?_cons (Option.isSome_of_eq_some hg)
  obtain ⟨w, n, hr, hw⟩ := h.walk? (List.cons_ne_nil name dir) hlen
  have hfinish : (w.append ((name :: dir).reverse.map .name)).finish fs .make =
      .ok (.occupied (name :: dir ++ base)) := by
    calc
      (w.append ((name :: dir).reverse.map .name)).finish fs .make
        = ((w.append (dir.reverse.map .name)).append [.name name]).finish fs .make := by
          simp [Walk.append]
      _ = ((Walk.mk n (dir ++ base) []).append [.name name]).finish fs .make :=
          (reaches_below hr hd).finish_append List.mem_cons_self (by simp)
      _ = _ := by
          have ha := advance_make_name hd hg 0
          simp only [List.replicate_zero] at ha
          simp [Walk.append, Walk.finish, follow, ha]
  rw [locate_of_walk? hw, hfinish]
  rfl

/-- `gs` is `fs` with the directories that were missing on the way to `dir`. -/
def LaidOut (fs gs : FileSystem) (dir : Location) : Prop :=
  ∀ loc, gs.get? loc =
    if fs.get? loc = none ∧ loc <:+ dir then some (.directory .forDirectory) else fs.get? loc

theorem LaidOut.refl (h : fs.isDirectory dir) : fs.LaidOut fs dir := by
  intro loc
  by_cases hs : loc <:+ dir
  · obtain ⟨permissions, hg⟩ := isDirectory_iff.mp (isDirectory_of_suffix hs h)
    simp [hg]
  · simp [hs]

theorem LaidOut.adds (h : fs.LaidOut gs dir) : fs.AddsDirectories gs := by
  intro loc
  rw [h loc]
  split
  · next hn => exact .inr ⟨hn.1, rfl⟩
  · exact .inl rfl

theorem LaidOut.isDirectory (h : fs.LaidOut gs dir) (ho : fs.Unobstructed dir) :
    gs.isDirectory dir := by
  by_cases hn : fs.get? dir = none
  · exact isDirectory_iff.mpr ⟨_, (h dir).trans (if_pos ⟨hn, List.suffix_rfl⟩)⟩
  · exact h.adds.grows.isDirectory (ho.isDirectory hn)

theorem LaidOut.get?_below (h : fs.LaidOut gs dir) (name : Name) :
    gs.get? (name :: dir) = fs.get? (name :: dir) := by
  have hs : ¬ (name :: dir) <:+ dir := by
    intro hs
    have hle := hs.length_le
    rw [List.length_cons] at hle
    omega
  rw [h, if_neg fun hn => hs hn.2]

theorem LaidOut.make {hs : FileSystem} {p : Path} (h : fs.LaidOut gs dir)
    (hmade : Made gs hs cwd p dir name) : fs.LaidOut hs (name :: dir) := by
  have hfree : fs.get? (name :: dir) = none := (h.get?_below name).symm.trans hmade.free
  intro loc
  by_cases he : name :: dir = loc
  · subst he
    rw [hmade.made, if_pos ⟨hfree, List.suffix_rfl⟩]
  · have hiff : loc <:+ name :: dir ↔ loc <:+ dir := by
      rw [List.suffix_cons_iff]
      exact or_iff_right (Ne.symm he)
    rw [hmade.others loc he, h loc]
    simp only [hiff]

theorem Entrance.exists_made (h : fs.Entrance cwd root base)
    (hd : fs.isDirectory (dir ++ base)) (hn : fs.get? (name :: dir ++ base) = none)
    (hlen : (Path.below root (name :: dir)).bytes.length < pathLimit) :
    ∃ gs, fs.makeDirectory cwd (Path.below root (name :: dir)) = (.ok (), gs) ∧
      Made fs gs cwd (Path.below root (name :: dir)) (dir ++ base) name := by
  have hl := h.locate_free hd hn hlen .make
  rw [if_pos (by decide)] at hl
  refine ⟨_, ?_, made_of_locate hl⟩
  unfold makeDirectory make
  rw [hl]

theorem Entrance.kind? (h : fs.Entrance cwd root base) (ho : fs.Unobstructed (dir ++ base))
    (hlen : (Path.below root dir).bytes.length < pathLimit) :
    fs.kind? cwd (Path.below root dir) =
      if fs.get? (dir ++ base) = none then none else some .directory := by
  by_cases hn : fs.get? (dir ++ base) = none
  · rw [if_pos hn]
    obtain ⟨name, dir, rfl⟩ := List.exists_cons_of_ne_nil (h.ne_nil_of_missing hn)
    have hl : fs.locate cwd .find (Path.below root (name :: dir)) = .error (.system .noEntry) := by
      have habove : fs.Unobstructed (dir ++ base) := ho.of_suffix (List.suffix_cons name _)
      by_cases hg : fs.get? (dir ++ base) = none
      · exact h.locate_missing habove hg hlen .find
      · exact (h.locate_free (habove.isDirectory hg) hn hlen .find).trans (if_neg (by decide))
    simp [FileSystem.kind?, hl]
  · rw [if_neg hn]
    have hd : fs.isDirectory (dir ++ base) := ho.isDirectory hn
    obtain ⟨permissions, hg⟩ := isDirectory_iff.mp hd
    exact kind?_eq_directory (h.locate_find hg (by simp [Entry.isLink]) hlen) hd

theorem ensureDirectory_of_ok {p : Path} (h : fs.makeDirectory cwd p = (.ok (), gs)) :
    fs.ensureDirectory cwd p = (.ok (), gs) := by
  unfold FileSystem.ensureDirectory
  rw [h]

theorem Entrance.run_makeFirst (h : fs.Entrance cwd root base) (hne : dir ≠ [])
    (ho : fs.Unobstructed (dir ++ base)) (hr : root.getLast? = some Path.slash)
    (hlen : (Path.below root dir).bytes.length < pathLimit) :
    ∃ gs, ((disk cwd).makeFirst (Path.below root dir :: (Path.below root dir).ancestors)).run fs =
      (.ok (), gs) ∧ fs.LaidOut gs (dir ++ base) := by
  induction dir with
  | nil => exact absurd rfl hne
  | cons name dir ih =>
    have habove : fs.Unobstructed (dir ++ base) := ho.of_suffix (List.suffix_cons name _)
    have hempty : ¬ (Path.below root (name :: dir)).isEmpty := by
      obtain ⟨start, rfl⟩ := List.getLast?_eq_some_iff.mp hr
      simp [Path.below, Path.isEmpty]
    by_cases hg : fs.get? (dir ++ base) = none
    · -- the directory above is missing as well, and is made first
      have hdir : dir ≠ [] := h.ne_nil_of_missing hg
      have hshort : (Path.below root dir).bytes.length < pathLimit :=
        (Path.length_below_le root name dir).trans_lt hlen
      obtain ⟨gs, hmake, hlaid⟩ := ih hdir habove hshort
      have hd : gs.isDirectory (dir ++ base) := hlaid.isDirectory habove
      have hn : fs.get? (name :: dir ++ base) = none := by
        by_contra hs
        exact get?_ne_none_of_isDirectory
          (isDirectory_of_get?_cons (Option.isSome_iff_ne_none.mpr hs)) hg
      obtain ⟨hs, hmake', hmade⟩ := (h.mono hlaid.adds.grows).exists_made hd
        ((hlaid.get?_below name).trans hn) hlen
      refine ⟨hs, ?_, hlaid.make hmade⟩
      have hmissing : fs.makeDirectory cwd (Path.below root (name :: dir)) =
          (.error (.system .noEntry), fs) := by
        unfold FileSystem.makeDirectory make
        rw [h.locate_missing habove hg hlen]
      rw [Path.ancestors_below hr name hdir]
      unfold Disk.makeFirst
      rw [makeBelow_of_noEntry hempty hmissing, hmake]
      exact ensureDirectory_of_ok hmake'
    · have hd : fs.isDirectory (dir ++ base) := habove.isDirectory hg
      unfold Disk.makeFirst
      by_cases hn : fs.get? (name :: dir ++ base) = none
      · obtain ⟨gs, hmake, hmade⟩ := h.exists_made hd hn hlen
        refine ⟨gs, ?_, (LaidOut.refl hd).make hmade⟩
        rw [makeBelow_eq_ensureDirectory hempty (by simp [hmake])]
        exact ensureDirectory_of_ok hmake
      · obtain ⟨entry, he⟩ := Option.ne_none_iff_exists'.mp hn
        have hthere : fs.makeDirectory cwd (Path.below root (name :: dir)) =
            (.error (.system .alreadyExists), fs) := by
          unfold FileSystem.makeDirectory make
          rw [h.locate_make he hlen]
        have hkind := h.kind? ho hlen
        rw [if_neg hn] at hkind
        refine ⟨fs, ?_, .refl (ho.isDirectory hn)⟩
        have hother : (fs.makeDirectory cwd (Path.below root (name :: dir))).1 ≠
            .error (.system .noEntry) := by
          rw [hthere]
          exact fun hc => by cases hc
        rw [makeBelow_eq_ensureDirectory hempty hother]
        unfold FileSystem.ensureDirectory
        rw [hthere]
        simp only [if_pos hkind]

theorem Entrance.prepared (h : fs.Entrance cwd root base) (ho : fs.Unobstructed (dir ++ base))
    (hr : root.getLast? = some Path.slash)
    (hlen : (Path.below root dir).bytes.length < pathLimit) :
    ∃ mid, Prepared cwd (Path.below root dir) fs (decide (fs.get? (dir ++ base) = none)) mid ∧
      fs.LaidOut mid (dir ++ base) := by
  have hkind := h.kind? ho hlen
  by_cases hn : fs.get? (dir ++ base) = none
  · obtain ⟨mid, hmake, hlaid⟩ := h.run_makeFirst (h.ne_nil_of_missing hn) ho hr hlen
    rw [if_pos hn] at hkind
    rw [decide_eq_true hn]
    exact ⟨mid, .made hkind hmake, hlaid⟩
  · rw [if_neg hn] at hkind
    rw [decide_eq_false hn]
    exact ⟨fs, .there hkind (by decide), .refl (ho.isDirectory hn)⟩

/-- A file is copied below a directory if nothing is in the way and no link or directory has its
name. -/
theorem Entrance.run_carryOut {plan : Plan} {src : Location} {content : ByteArray}
    {permissions : Permissions} (h : fs.Entrance cwd root base) (hc : fs.isDirectory cwd.above)
    (hr : root.getLast? = some Path.slash) (hdir : plan.destinationDir = Path.below root dir)
    (hfile : plan.destinationFile = Path.below root (name :: dir))
    (hlen : plan.destinationFile.bytes.length < pathLimit) (ho : fs.Unobstructed (dir ++ base))
    (ht : fs.get? (name :: dir ++ base) = none ∨ fs.isFile (name :: dir ++ base))
    (hs : fs.locate cwd .find plan.source = .ok (.occupied src))
    (hf : fs.get? src = some (.file content permissions)) :
    ∃ mid copied after, ((disk cwd).carryOut plan).run fs =
        (.ok ⟨plan, decide (fs.get? (dir ++ base) = none), copied.size⟩, after) ∧
      fs.LaidOut mid (dir ++ base) ∧
      Copied mid after src (name :: dir ++ base) content copied permissions ∧
      fs.Grows after ∧
      after.locate cwd .find plan.destinationFile = .ok (.occupied (name :: dir ++ base)) := by
  rw [hfile] at hlen
  have hshort : (Path.below root dir).bytes.length < pathLimit :=
    (Path.length_below_le root name dir).trans_lt hlen
  obtain ⟨mid, hprep, hlaid⟩ := h.prepared ho hr hshort
  have hgrows : fs.Grows mid := hlaid.adds.grows
  have hmid : mid.Entrance cwd root base := h.mono hgrows
  have hd : mid.isDirectory (dir ++ base) := hlaid.isDirectory ho
  have hsame : mid.get? (name :: dir ++ base) = fs.get? (name :: dir ++ base) :=
    hlaid.get?_below name
  have hw : mid.writable cwd plan.destinationFile = .ok (name :: dir ++ base) := by
    rw [hfile]
    rcases ht with hn | hfile'
    · have hl := hmid.locate_free hd (hsame.trans hn) hlen .write
      rw [if_pos (by decide)] at hl
      simp [writable, hl]
    · have hfile'' : mid.isFile (name :: dir ++ base) := hgrows.isFile hfile'
      obtain ⟨content', permissions', hg⟩ := isFile_iff.mp hfile''
      exact writable_of_locate (hmid.locate_find hg (by simp [Entry.isLink]) hlen)
        (not_isDirectory_of_isFile hfile'')
  obtain ⟨copied, after, hcopy, hcop⟩ := copyFile_of_writable (hgrows.isDirectory hc)
    (locate_find_mono hs hgrows) (hlaid.adds.get?_eq hf) hw
  have hafter : mid.Grows after :=
    hcop.grows (isFile_or_free_of_writable hw (hgrows.isDirectory hc))
  have hl : after.locate cwd .find plan.destinationFile =
      .ok (.occupied (name :: dir ++ base)) := by
    rw [hfile]
    exact (hmid.mono hafter).locate_find hcop.written (by simp [Entry.isLink]) hlen
  rw [← hdir] at hprep
  exact ⟨mid, copied, after, run_carryOut_of_prepared hprep hcopy, hlaid, hcop,
    hgrows.trans hafter, hl⟩

end

end FileSystem

end MarkerCopy
