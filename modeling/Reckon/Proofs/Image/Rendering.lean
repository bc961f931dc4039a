import Reckon.Image.Rehearsal
import Reckon.Proofs.Entries
import Reckon.Proofs.Formula.Coherent

/-!
Rendering leaves an image or nothing.

All files that lead to the image carry its name, with four suffixes; tidying up removes exactly these.
So whatever the two commands leave among them is gone in the end, and where the commands keep to their
files, nothing else has changed but the image: the first command writes none of the others, the second
one writes the image alone, and that only where it succeeds.

    before     a.txt   f.log                         f   the name of the image
    typeset    a.txt   f.tex f.dvi f.aux f.log
    draw       a.txt   f.tex f.dvi f.aux f.log f.png
    tidied     a.txt                           f.png

It does not matter where the work stops: at the first command, at the density, or at the second command.
-/

namespace Reckon

/-! ### Files -/

namespace Directory

variable (d : Directory) (name other : String)

theorem read?_remove : (d.remove name).read? other = if other = name then none else d.read? other :=
  Entries.lookup_without d name other

theorem read?_write (content : String) :
    (d.write name content).read? other = if other = name then some content else d.read? other :=
  Entries.lookup_renewed d name other content

/-- The suffix of a document is replaced, whatever stands before it. -/
theorem withSuffix_tex {name : String} (h : name ≠ "") (suffix : String) :
    withSuffix (name ++ ".tex") suffix = name ++ suffix := by
  have hreverse : (name ++ ".tex").toList.reverse = ['x', 'e', 't'] ++ '.' :: name.toList.reverse := by
    simp
  obtain ⟨c, cs, hcs⟩ : ∃ c cs, name.toList.reverse = c :: cs := by
    refine List.exists_cons_of_ne_nil ?_
    simpa using h
  have hstem : stem (name ++ ".tex") = name := by
    rw [stem, hreverse, hcs]
    show String.ofList (c :: cs).reverse = name
    rw [← hcs, List.reverse_reverse, String.ofList_toList]
  rw [withSuffix, hstem]

end Directory

theorem Digest.length_fingerprint (s : String) : (fingerprint s).length = 40 := by
  have hbytes (h : Chain) : (h.toList.flatMap fun w => (List.range 8).map fun (i : Nat) =>
      (w >>> (8 * i).toUInt64).toUInt8).length = 64 := by
    simp [List.length_flatMap]
  have hblake (bytes : List UInt8) : (blake2b 20 bytes).length = 20 := by
    rw [blake2b, List.length_take, hbytes]
    rfl
  rw [fingerprint, String.length_ofList, List.length_flatMap]
  simp [hblake]

theorem Formula.Coherent.length_fingerprint {f : Formula} (hf : f.Coherent) :
    f.fingerprint.length = 40 := by
  rw [hf.fingerprint]
  exact Digest.length_fingerprint _

theorem Formula.Coherent.fingerprint_ne {f : Formula} (hf : f.Coherent) : f.fingerprint ≠ "" := by
  intro h
  have hlength := hf.length_fingerprint
  rw [h] at hlength
  cases hlength

namespace Image

/-- The files that lead to the image of a name. -/
def filesOf (name : String) : List String := intermediates.map (name ++ ·)

/-- What the second command is called with. -/
def Style.drawing (style : Style) (density name : String) : List String :=
  ["-q", "-T", "tight", "-bg", style.background, "-D", density, "-o", name ++ ".png", name ++ ".dvi"]

/-- The commands keep to the files of a name: the first one to those that lead to the image, the second
one to these and the image, which it does not touch where it fails. So a second command that fails and
leaves part of an image behind is not among these commands. -/
structure Toolbox.Confined (tools : Toolbox) (style : Style) (name : String) : Prop where
  typeset (d : Directory) (file : String) : file ∉ filesOf name →
    (tools.typeset d ["-interaction=nonstopmode", name ++ ".tex"]).directory.read? file = d.read? file
  draw (d : Directory) (density file : String) : densityText style.density = .ok density →
    file ∉ filesOf name → file ≠ name ++ ".png" →
    (tools.draw d (style.drawing density name)).directory.read? file = d.read? file
  failed (d : Directory) (density file : String) (status : Int) :
    densityText style.density = .ok density →
    (tools.draw d (style.drawing density name)).failure = some status → file ∉ filesOf name →
    (tools.draw d (style.drawing density name)).directory.read? file = d.read? file

/-- Where the second command succeeds it leaves the image. -/
def Toolbox.Draws (tools : Toolbox) (style : Style) (name : String) : Prop :=
  ∀ (d : Directory) (density : String), densityText style.density = .ok density →
    (tools.draw d (style.drawing density name)).failure = none →
    ((tools.draw d (style.drawing density name)).directory.read? (name ++ ".png")).isSome

variable {tools : Toolbox} {style : Style} {name : String}

/-- Tidying up removes the files that lead to the image, and no others. -/
theorem read?_tidy (hname : name ≠ "") (d : Directory) (file : String) :
    (tidy (name ++ ".tex") d).read? file = if file ∈ filesOf name then none else d.read? file := by
  have hfold (suffixes : List String) (d : Directory) :
      (suffixes.foldl (fun d suffix => d.remove (Directory.withSuffix (name ++ ".tex") suffix))
        d).read? file = if file ∈ suffixes.map (name ++ ·) then none else d.read? file := by
    induction suffixes generalizing d with
    | nil => rfl
    | cons suffix suffixes ih =>
      rw [List.foldl_cons, ih, Directory.read?_remove, Directory.withSuffix_tex hname]
      by_cases hfile : file = name ++ suffix
      · simp [hfile]
      · simp [hfile]
  exact hfold intermediates d

/-- The work stops behind the first command, or it ends as the second command does. -/
theorem work_cases (tools : Toolbox) (style : Style) (hname : name ≠ "") (d : Directory) :
    let typeset := tools.typeset d ["-interaction=nonstopmode", name ++ ".tex"]
    let done := work tools style (name ++ ".tex") d
    (done.directory = typeset.directory ∧ done.result ≠ .ok ()) ∨
    ∃ density, densityText style.density = .ok density ∧
      let draw := tools.draw typeset.directory (style.drawing density name)
      done.directory = draw.directory ∧ (done.result = .ok () ↔ draw.failure = none) := by
  intro typeset done
  have hdone : done = work tools style (name ++ ".tex") d := rfl
  rw [work, Directory.withSuffix_tex hname, Directory.withSuffix_tex hname] at hdone
  dsimp only at hdone
  split at hdone
  · rw [hdone]
    exact .inl ⟨rfl, by simp⟩
  · split at hdone
    · rw [hdone]
      exact .inl ⟨rfl, by simp⟩
    · next density hdensity =>
      refine .inr ⟨density, hdensity, ?_⟩
      intro draw
      split at hdone
      · next status hfailure =>
        rw [hdone]
        exact ⟨rfl, by simp [draw, typeset, Style.drawing, hfailure]⟩
      · next hsuccess =>
        rw [hdone]
        exact ⟨rfl, by simp [draw, typeset, Style.drawing, hsuccess]⟩

/-- The work changes no file but those that lead to the image, and the image if it comes to its end. -/
theorem read?_work (hname : name ≠ "") (htools : tools.Confined style name) (d : Directory)
    {file : String} (hfile : file ∉ filesOf name)
    (hpng : (work tools style (name ++ ".tex") d).result = .ok () → file ≠ name ++ ".png") :
    (work tools style (name ++ ".tex") d).directory.read? file = d.read? file := by
  have htypeset := htools.typeset d file hfile
  obtain ⟨hdirectory, -⟩ | ⟨density, hdensity, hdirectory, hresult⟩ := work_cases tools style hname d
  · rw [hdirectory, htypeset]
  · rw [hdirectory, ← htypeset]
    cases hfailure : (tools.draw _ (style.drawing density name)).failure with
    | some status => exact htools.failed _ density file status hdensity hfailure hfile
    | none => exact htools.draw _ density file hdensity hfile (hpng (hresult.2 hfailure))

/-- Work that comes to its end leaves the image. -/
theorem isSome_work (hname : name ≠ "") (hdraws : tools.Draws style name) (d : Directory)
    (h : (work tools style (name ++ ".tex") d).result = .ok ()) :
    ((work tools style (name ++ ".tex") d).directory.read? (name ++ ".png")).isSome := by
  obtain ⟨-, hstopped⟩ | ⟨density, hdensity, hdirectory, hresult⟩ :=
    work_cases tools style hname d
  · exact absurd h hstopped
  · rw [hdirectory]
    exact hdraws _ density hdensity (hresult.1 h)

/-! ### Rehearsed commands -/

/-- A density is written as an integer. -/
theorem exists_of_densityText {density : Number} {s : String} (h : densityText density = .ok s) :
    ∃ n : Int, (Number.int n).text? = some s := by
  cases density with
  | int n =>
    unfold densityText at h
    simp only [pure_bind] at h
    split at h
    · next htext =>
      obtain rfl := Except.ok.inj h
      exact ⟨n, htext⟩
    · cases h
  | float x =>
    unfold densityText at h
    dsimp only at h
    cases hparts : Binary64.parts x with
    | finite negative significand power =>
      simp only [hparts, pure_bind] at h
      split at h
      · next htext =>
        obtain rfl := Except.ok.inj h
        exact ⟨_, htext⟩
      · cases h
    | nan =>
      rw [hparts] at h
      cases h
    | infinite negative =>
      rw [hparts] at h
      cases h

/-- The text of an integer is no option: all that may stand behind its sign are digits. -/
theorem intText_ne_option (n : Int) : Number.intText n ≠ "-o" := by
  intro h
  have hchars : (if n < 0 then '-' :: Nat.toDigits 10 n.natAbs else Nat.toDigits 10 n.natAbs) =
      ['-', 'o'] := by
    rw [Number.intText] at h
    rw [← String.toList_ofList (l := if n < 0 then _ else _), h]
    rfl
  have ho : 'o' ∈ Nat.toDigits 10 n.natAbs := by
    split at hchars
    · rw [(List.cons.inj hchars).2]
      exact List.mem_singleton_self _
    · rw [hchars]
      decide
  exact absurd (Nat.isDigit_of_mem_toDigits (by decide) (by decide) ho) (by decide)

theorem densityText_ne_option {density : Number} {s : String} (h : densityText density = .ok s) :
    s ≠ "-o" := by
  obtain ⟨n, hn⟩ := exists_of_densityText h
  rw [Number.text?] at hn
  split at hn
  · rw [← Option.some.inj hn]
    exact intText_ne_option n
  · cases hn

theorem densityText_default : densityText Style.default.density = .ok "700" := by
  have htext : (Number.int 700).text? = some "700" := by
    rw [Number.text?, if_pos (Number.isWritable_int.2 (by decide))]
    rfl
  unfold densityText
  simp only [Style.default, pure_bind]
  rw [htext]
  rfl

section

variable (r : Rehearsal)

theorem Rehearsal.draw_drawing (hbackground : style.background ≠ "-o") {density : String}
    (h : densityText style.density = .ok density) (d : Directory) :
    r.draw d (style.drawing density name) =
      ⟨if r.failing = some 1 then d else d.write (name ++ ".png") Rehearsal.picture,
        r.failureOf 1⟩ := by
  have hargument : argumentOf "-o" (style.drawing density name) = some (name ++ ".png") := by
    simp [argumentOf, Style.drawing, hbackground, densityText_ne_option h]
  rw [Rehearsal.draw, hargument]

/-- Rehearsed commands keep to the files of a name. -/
theorem Rehearsal.confined (hname : name ≠ "") (hbackground : style.background ≠ "-o") :
    r.toolbox.Confined style name where
  typeset d file hfile := by
    simp only [filesOf, intermediates, List.map_cons, List.map_nil, List.mem_cons, List.not_mem_nil,
      or_false, not_or] at hfile
    obtain ⟨-, hdvi, haux, hlog⟩ := hfile
    show (r.typeset d _).directory.read? file = _
    rw [Rehearsal.typeset]
    dsimp only [List.getLastD]
    simp only [List.getLast]
    rw [Directory.withSuffix_tex hname, Directory.withSuffix_tex hname, Directory.withSuffix_tex hname]
    split
    · rw [Directory.read?_write, if_neg hlog, Directory.read?_write, if_neg haux]
    · rw [Directory.read?_write, if_neg hdvi, Directory.read?_write, if_neg hlog,
        Directory.read?_write, if_neg haux]
  draw d density file hdensity _ hpng := by
    show (r.draw d _).directory.read? file = _
    rw [r.draw_drawing hbackground hdensity]
    dsimp only
    split
    · rfl
    · rw [Directory.read?_write, if_neg hpng]
  failed d density file status hdensity hfailure _ := by
    have hrun : r.toolbox.draw d (style.drawing density name) = _ :=
      r.draw_drawing hbackground hdensity d
    rw [hrun] at hfailure ⊢
    have hfailing : r.failing = some 1 := by
      by_contra hother
      simp [Rehearsal.failureOf, hother] at hfailure
    rw [if_pos hfailing]

theorem Rehearsal.draws (hbackground : style.background ≠ "-o") :
    r.toolbox.Draws style name := by
  intro d density hdensity hsuccess
  have hrun : r.toolbox.draw d (style.drawing density name) = _ :=
    r.draw_drawing hbackground hdensity d
  rw [hrun] at hsuccess ⊢
  have hfailing : r.failing ≠ some 1 := by
    intro h
    simp [Rehearsal.failureOf, h] at hsuccess
  rw [if_neg hfailing, Directory.read?_write, if_pos rfl]
  rfl

end

/-! ### Rendering -/

/-- The directory that is there before. -/
def Place.before : Place → Option Directory
  | .given d => some d
  | .fresh => none

variable {place : Place} {text : String}

theorem missing_eq_nil : tools.missing = [] ↔
    ∀ name ∈ required, ¬ tools.isMissing (tools.command name) :=
  List.filter_eq_nil_iff

theorem render_of_missing (h : tools.missing ≠ []) : render tools style text name place =
    ⟨.error (.missingCommands tools.missing), place.before, [], none⟩ := by
  unfold render
  dsimp only
  split
  · next hnil => exact absurd hnil h
  · cases place <;> rfl

/-- The work in the directory with the document. -/
def worked (tools : Toolbox) (style : Style) (text name : String) (place : Place) : Work :=
  work tools style (name ++ ".tex")
    ((place.before.getD []).write (name ++ ".tex") (document text))

/-- Work that comes to its end is tidied up. -/
theorem render_of_ok (hname : name ≠ "") (h : tools.missing = [])
    (hwork : (worked tools style text name place).result = .ok ()) :
    render tools style text name place = ⟨.ok (name ++ ".png"),
      some (tidy (name ++ ".tex") (worked tools style text name place).directory),
      (worked tools style text name place).calls, some (document text)⟩ := by
  rw [worked] at hwork ⊢
  unfold render
  dsimp only
  rw [h, Directory.withSuffix_tex hname]
  cases place <;> (simp only [Place.before] at hwork ⊢; rw [hwork])

/-- Work that fails is tidied up too; a directory made for it goes with it. -/
theorem render_of_error (h : tools.missing = []) {e : Error}
    (hwork : (worked tools style text name place).result = .error e) :
    render tools style text name place = ⟨.error e,
      place.before.map fun _ =>
        tidy (name ++ ".tex") (worked tools style text name place).directory,
      (worked tools style text name place).calls, some (document text)⟩ := by
  rw [worked] at hwork ⊢
  unfold render
  dsimp only
  rw [h]
  cases place <;> (simp only [Place.before] at hwork ⊢; rw [hwork])

theorem result_render (hname : name ≠ "") (h : tools.missing = []) :
    (render tools style text name place).result =
      (worked tools style text name place).result.map fun _ => name ++ ".png" := by
  cases hwork : (worked tools style text name place).result with
  | error e => rw [render_of_error h hwork]; rfl
  | ok u => rw [render_of_ok hname h hwork]; rfl

/-- Behind a first command that succeeds, the density decides and then the second command. -/
theorem Rehearsal.result_worked (r : Rehearsal) (h : r.failureOf 0 = none) :
    (worked r.toolbox style text name place).result =
      match densityText style.density, r.failureOf 1 with
      | .error e, _ => .error e
      | .ok _, some status => .error (.commandFailed (r.toolbox.command "dvipng") status)
      | .ok _, none => .ok () := by
  have htypeset (d : Directory) (arguments : List String) :
      (r.toolbox.typeset d arguments).failure = none := h
  have hdraw (d : Directory) (arguments : List String) :
      (r.toolbox.draw d arguments).failure = r.failureOf 1 := rfl
  rw [worked, work]
  dsimp only
  rw [htypeset]
  cases densityText style.density with
  | error e => rfl
  | ok density =>
    dsimp only
    rw [hdraw]
    cases r.failureOf 1 <;> rfl

/-- Tidied up, the directory is as before but for the image, and for that too where the work failed. -/
theorem read?_tidy_worked (hname : name ≠ "") (htools : tools.Confined style name) {file : String}
    (hfile : file ∉ filesOf name)
    (hpng : (worked tools style text name place).result = .ok () → file ≠ name ++ ".png") :
    (tidy (name ++ ".tex") (worked tools style text name place).directory).read? file =
      (place.before.getD []).read? file := by
  have htex : file ≠ name ++ ".tex" := by
    rintro rfl
    exact hfile (List.mem_map_of_mem (by decide))
  rw [read?_tidy hname, if_neg hfile, worked, read?_work hname htools _ hfile hpng,
    Directory.read?_write, if_neg htex]

/-- Whatever comes of rendering a formula, no file is left but the image. Where a required command is
missing, nothing is done, and the error names just those that are. Otherwise the files that lead to the
image are gone, and all files but these and the image are as before; after a failure the image is as
before too, a directory that was there is there still, and one that was made for it is gone. -/
theorem render_leaves {f : Formula} (hf : f.Coherent) (htools : tools.Confined style f.fingerprint)
    (text : String) (place : Place) :
    let png := f.fingerprint ++ ".png"
    let r := render tools style text f.fingerprint place
    ((∃ name ∈ required, tools.isMissing (tools.command name)) →
      ∃ names : List String, names.Sublist required ∧
        (∀ name ∈ required, name ∈ names ↔ tools.isMissing (tools.command name)) ∧
        r.result = .error (.missingCommands names) ∧
        r.directory = place.before ∧ r.calls = [] ∧ r.document = none) ∧
    ((∀ name ∈ required, ¬ tools.isMissing (tools.command name)) →
      (∀ d, r.directory = some d → ∀ file ∈ filesOf f.fingerprint, d.read? file = none) ∧
      (∀ path, r.result = .ok path → path = png ∧ ∃ d, r.directory = some d ∧
        (∀ file, file ∉ filesOf f.fingerprint → file ≠ png →
          d.read? file = (place.before.getD []).read? file) ∧
        (tools.Draws style f.fingerprint → (d.read? png).isSome)) ∧
      ∀ e, r.result = .error e →
        (∀ before, place = .given before → ∃ d, r.directory = some d ∧
          ∀ file, file ∉ filesOf f.fingerprint → d.read? file = before.read? file) ∧
        (place = .fresh → r.directory = none)) := by
  intro png r
  have hname := hf.fingerprint_ne
  have hpng : png ∉ filesOf f.fingerprint := by
    simp [png, filesOf, intermediates]
  refine ⟨fun hmissing => ?_, fun hthere => ?_⟩
  · have hne : tools.missing ≠ [] := by
      intro hnil
      obtain ⟨name, hrequired, hname⟩ := hmissing
      exact missing_eq_nil.1 hnil name hrequired hname
    have hr : r = _ := render_of_missing hne
    rw [hr]
    refine ⟨_, List.filter_sublist, fun name hrequired => ?_, rfl, rfl, rfl, rfl⟩
    exact List.mem_filter.trans (and_iff_right hrequired)
  have hmissing : tools.missing = [] := missing_eq_nil.2 hthere
  have hgone (d : Directory) : ∀ file ∈ filesOf f.fingerprint,
      (tidy (f.fingerprint ++ ".tex") d).read? file = none := by
    intro file hfile
    rw [read?_tidy hname, if_pos hfile]
  -- what is cleared away after the work is the same in both cases: they differ in the image
  cases hresult : (worked tools style text f.fingerprint place).result with
  | ok u =>
    have hr : r = _ := render_of_ok hname hmissing hresult
    rw [hr]
    refine ⟨fun d hd => ?_, fun path hpath => ?_, fun e he => ?_⟩
    · obtain rfl := Option.some.inj hd
      exact hgone _
    · obtain rfl := Except.ok.inj hpath
      refine ⟨rfl, _, rfl, fun file hfile hne => ?_, fun hdraws => ?_⟩
      · exact read?_tidy_worked hname htools hfile fun _ => hne
      · rw [read?_tidy hname, if_neg hpng]
        exact isSome_work hname hdraws _ hresult
    · cases he
  | error e =>
    have hr : r = _ := render_of_error hmissing hresult
    rw [hr]
    refine ⟨fun d hd => ?_, fun path hpath => ?_, fun e' he' => ⟨?_, ?_⟩⟩
    · obtain ⟨_, _, rfl⟩ := Option.map_eq_some_iff.1 hd
      exact hgone _
    · cases hpath
    · rintro before rfl
      refine ⟨_, rfl, fun file hfile => read?_tidy_worked hname htools hfile fun hok => ?_⟩
      rw [hresult] at hok
      cases hok
    · rintro rfl
      rfl

/-- Beside a text and an old record that are there already, a formula is drawn, or a command is
missing, or the first command fails over it, the density or the second command. The text is there in
the end whatever happens, and the record only where nothing was done. A new directory is left with the
image or not at all. -/
theorem render_leaves_note :
    let f : Formula := ⟨"\\sum", [], false, [], Digest.fingerprint (Formula.fingerprintSource [] [])⟩
    let png := f.fingerprint ++ ".png"
    let log := f.fingerprint ++ ".log"
    let before : Directory := [("a.txt", "note"), (log, "old")]
    let dense : Style := ⟨"White", .float Binary64.infinity⟩
    let rendered (r : Rehearsal) (style : Style) (place : Place) :=
      render r.toolbox style f.source f.fingerprint place
    let fails (r : Rehearsal) (style : Style) (e : Error) :=
      (rendered r style (.given before)).result = .error e ∧
      (∃ d, (rendered r style (.given before)).directory = some d ∧
        d.read? "a.txt" = some "note" ∧ d.read? log = none) ∧
      (rendered r style .fresh).directory = none
    let undrawable : Rehearsal := ⟨["dvipng"], [], none, 1⟩
    (∃ names, (rendered undrawable .default (.given before)).result = .error (.missingCommands names) ∧
      "dvipng" ∈ names ∧ "latex" ∉ names ∧
      (rendered undrawable .default (.given before)).directory = some before) ∧
    fails ⟨[], [], some 0, 1⟩ .default (.commandFailed "latex" 1) ∧
    fails .smooth dense .infiniteDensity ∧
    fails ⟨[], [], some 1, 2⟩ .default (.commandFailed "dvipng" 2) ∧
    ∀ place ∈ [Place.given before, .fresh], (rendered .smooth .default place).result = .ok png ∧
      ∃ d, (rendered .smooth .default place).directory = some d ∧ (d.read? png).isSome ∧
        d.read? "a.txt" = (place.before.getD []).read? "a.txt" ∧ d.read? log = none := by
  intro f png log before dense rendered fails undrawable
  have hf : f.Coherent := ⟨rfl, rfl, rfl, rfl⟩
  have hlog : log ∈ filesOf f.fingerprint := List.mem_map_of_mem (by decide)
  have hnote (suffix : String) : "a.txt" ≠ f.fingerprint ++ suffix := by
    intro h
    have hlength := congrArg String.length h
    rw [String.length_append, hf.length_fingerprint] at hlength
    change 5 = _ at hlength
    omega
  have hothers : "a.txt" ∉ filesOf f.fingerprint := by
    intro hmem
    obtain ⟨suffix, -, hfile⟩ := List.mem_map.1 hmem
    exact hnote suffix hfile.symm
  have hfails (r : Rehearsal) (style : Style) (e : Error) (hbackground : style.background ≠ "-o")
      (hthere : ∀ name ∈ required, ¬ r.toolbox.isMissing (r.toolbox.command name))
      (hresult : ∀ place, (rendered r style place).result = .error e) : fails r style e := by
    have htools : r.toolbox.Confined style f.fingerprint := r.confined hf.fingerprint_ne hbackground
    obtain ⟨hgone, -, hfailed⟩ := (render_leaves hf htools f.source (.given before)).2 hthere
    obtain ⟨d, hd, hsame⟩ := (hfailed _ (hresult _)).1 _ rfl
    obtain ⟨-, -, hnothing⟩ := (render_leaves hf htools f.source .fresh).2 hthere
    exact ⟨hresult _, ⟨d, hd, hsame _ hothers, hgone d hd log hlog⟩,
      (hnothing _ (hresult _)).2 rfl⟩
  have hinfinite : densityText dense.density = .error .infiniteDensity := by
    have hparts : Binary64.parts Binary64.infinity = .infinite false := by decide +kernel
    unfold densityText
    dsimp only [dense]
    rw [hparts]
    rfl
  have hresult {r : Rehearsal} {style : Style} {place : Place} (hmissing : r.toolbox.missing = [])
      (htypeset : r.failureOf 0 = none) : (rendered r style place).result = _ :=
    (result_render hf.fingerprint_ne hmissing).trans (congrArg _ (r.result_worked htypeset))
  refine ⟨?_, ?_, ?_, ?_, ?_⟩
  · have htools : undrawable.toolbox.Confined .default f.fingerprint :=
      undrawable.confined hf.fingerprint_ne (by decide)
    obtain ⟨names, -, hnames, hresult, hdirectory, -⟩ :=
      (render_leaves hf htools f.source (.given before)).1 ⟨"dvipng", by decide, by decide⟩
    exact ⟨names, hresult, (hnames "dvipng" (by decide)).2 (by decide),
      fun h => absurd ((hnames "latex" (by decide)).1 h) (by decide), hdirectory⟩
  · exact hfails _ _ _ (by decide) (by decide) fun place => by cases place <;> rfl
  · refine hfails _ _ _ (by decide) (by decide) fun place => ?_
    rw [hresult rfl rfl, hinfinite]
    rfl
  · refine hfails _ _ _ (by decide) (by decide) fun place => ?_
    rw [hresult rfl rfl, densityText_default]
    rfl
  · intro place _
    have hok : (rendered .smooth .default place).result = .ok png := by
      rw [hresult rfl rfl, densityText_default]
      rfl
    have htools : Rehearsal.smooth.toolbox.Confined .default f.fingerprint :=
      Rehearsal.smooth.confined hf.fingerprint_ne (by decide)
    obtain ⟨hgone, hdrawn, -⟩ := (render_leaves hf htools f.source place).2 (by decide)
    obtain ⟨-, d, hd, hsame, himage⟩ := hdrawn png hok
    exact ⟨hok, d, hd, himage (Rehearsal.smooth.draws (by decide)),
      hsame _ hothers (hnote _), hgone d hd log hlog⟩

end Image

end Reckon
