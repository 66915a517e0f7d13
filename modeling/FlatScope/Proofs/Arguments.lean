import FlatScope.CommandLine.Request

/-!
# How options are written

`Options.Written o args`: the arguments write down the options `o`, each that is on once, and the
file, in any order and with a `--` in front of the file or none. These are the arguments with which
the program runs with the options `o` (`ofArgs_eq_run_iff`). Reading goes from one argument to the
next (`Options.Adds`), and what was read so far and what is left to read are together what is
written (`Adds.perm`, `adds_of_perm`).
-/

namespace FlatScope.CommandLine

/--
An argument that is taken for a file wherever it stands: it is not empty and begins with no dash,
unless it is a single dash.
-/
def IsName (arg : String) : Prop := arg ≠ "" ∧ (arg = "-" ∨ arg.toList.head? ≠ some '-')

theorem not_isName_noColour : ¬ IsName "--no-color" := by simp [IsName]

theorem not_isName_slots : ¬ IsName "--slots" := by simp [IsName]

theorem IsName.ne_option {name : String} (h : IsName name) :
    name ≠ "--no-color" ∧ name ≠ "--slots" :=
  ⟨fun heq => not_isName_noColour (heq ▸ h), fun heq => not_isName_slots (heq ▸ h)⟩

namespace Options

/-- The options that are on, as they are written. -/
def flags (o : Options) : List String :=
  (if o.noColour then ["--no-color"] else []) ++ if o.slots then ["--slots"] else []

/-- Arguments that write these options down. -/
inductive Written (o : Options) : List String → Prop where
  | plain {args : List String} : args.Perm (o.flags ++ o.file.toList) →
      (∀ name ∈ o.file, IsName name) → o.Written args
  /-- behind `--` everything is a file -/
  | dashes {front back names : List String} : front.Perm (o.flags ++ names) →
      (∀ name ∈ names, IsName name) → (∀ name ∈ back, name ≠ "") →
      names ++ back = o.file.toList → o.Written (front ++ "--" :: back)

/-- Any options can be written down, with any file behind `--`. -/
theorem written_flags {name : String} (noColour slots : Bool) (h : name ≠ "") :
    Written ⟨some name, noColour, slots⟩ (flags ⟨some name, noColour, slots⟩ ++ ["--", name]) := by
  have hnames : ∀ name ∈ ([] : List String), IsName name := List.forall_mem_nil _
  exact .dashes (by rw [List.append_nil]) hnames (List.forall_mem_singleton.mpr h) rfl

/-! ## Reading on -/

/-- Arguments in front of a `--` lead from some options to others. -/
inductive Adds : Options → List String → Options → Prop where
  | nil (o : Options) : Adds o [] o
  | noColour {o o' : Options} {rest : List String} : o.noColour = false →
      Adds { o with noColour := true } rest o' → Adds o ("--no-color" :: rest) o'
  | slots {o o' : Options} {rest : List String} : o.slots = false →
      Adds { o with slots := true } rest o' → Adds o ("--slots" :: rest) o'
  | file {o o' : Options} {name : String} {rest : List String} : o.file = none → IsName name →
      Adds { o with file := some name } rest o' → Adds o (name :: rest) o'

/-- What was written down to get these options. -/
def written (o : Options) : List String := o.flags ++ o.file.toList

variable {o o' : Options} {front back args : List String} {name : String}

theorem eq_of_parts (hfile : o.file.toList = o'.file.toList) (hcolour : o.noColour = o'.noColour)
    (hslots : o.slots = o'.slots) : o = o' := by
  have hsame : o.file = o'.file := Option.ext fun name => by
    rw [← Option.mem_toList, ← Option.mem_toList, hfile]
  cases o
  cases o'
  cases hsame
  cases hcolour
  cases hslots
  rfl

theorem written_noColour (h : o.noColour = false) :
    ({ o with noColour := true } : Options).written = "--no-color" :: o.written := by
  simp [written, flags, h]

theorem written_slots (h : o.slots = false) :
    ({ o with slots := true } : Options).written.Perm ("--slots" :: o.written) := by
  unfold written flags
  rw [h]
  simp only [↓reduceIte, Bool.false_eq_true, List.append_nil, List.append_assoc]
  exact List.perm_middle

theorem written_file (h : o.file = none) (name : String) :
    ({ o with file := some name } : Options).written.Perm (name :: o.written) := by
  unfold written
  rw [h, Option.toList_none, List.append_nil]
  exact List.perm_append_singleton name o.flags

theorem mem_written : name ∈ o.written ↔
    (o.noColour = true ∧ name = "--no-color") ∨ (o.slots = true ∧ name = "--slots") ∨
      o.file = some name := by
  unfold written flags
  cases o.noColour <;> cases o.slots <;> simp

/-- What is written down is all written once. -/
theorem nodup_written (h : ∀ name ∈ o.file, IsName name) : o.written.Nodup := by
  unfold written flags
  cases hfile : o.file with
  | none => cases o.noColour <;> cases o.slots <;> decide
  | some name =>
    obtain ⟨hne, hne'⟩ := (h name hfile).ne_option
    cases o.noColour <;> cases o.slots <;> simp [hne.symm, hne'.symm]

theorem mem_written_of_isName (h : IsName name) : name ∈ o.written ↔ o.file = some name := by
  obtain ⟨hne, hne'⟩ := h.ne_option
  simp only [mem_written, hne, hne', and_false, false_or]

theorem noColour_mem_written (h : ∀ name ∈ o.file, IsName name) :
    "--no-color" ∈ o.written ↔ o.noColour = true := by
  have hnot : o.file ≠ some "--no-color" := fun hfile => not_isName_noColour (h _ hfile)
  simp [mem_written, hnot]

theorem slots_mem_written (h : ∀ name ∈ o.file, IsName name) :
    "--slots" ∈ o.written ↔ o.slots = true := by
  have hnot : o.file ≠ some "--slots" := fun hfile => not_isName_slots (h _ hfile)
  simp [mem_written, hnot]

/-- What is written down says what the options are. -/
theorem eq_of_written_perm (h : ∀ name ∈ o.file, IsName name) (h' : ∀ name ∈ o'.file, IsName name)
    (hperm : o.written.Perm o'.written) : o = o' := by
  have hcolour : o.noColour = o'.noColour := Bool.eq_iff_iff.mpr <|
    (noColour_mem_written h).symm.trans (hperm.mem_iff.trans (noColour_mem_written h'))
  have hslots : o.slots = o'.slots := Bool.eq_iff_iff.mpr <|
    (slots_mem_written h).symm.trans (hperm.mem_iff.trans (slots_mem_written h'))
  have hfile : o.file = o'.file := by
    refine Option.ext fun name => ⟨fun hsome => ?_, fun hsome => ?_⟩
    · have hname := h name hsome
      exact (mem_written_of_isName hname).mp
        (hperm.mem_iff.mp ((mem_written_of_isName hname).mpr hsome))
    · have hname := h' name hsome
      exact (mem_written_of_isName hname).mp
        (hperm.mem_iff.mpr ((mem_written_of_isName hname).mpr hsome))
  exact eq_of_parts (congrArg Option.toList hfile) hcolour hslots

theorem Adds.isName (h : Adds o front o') (ho : ∀ name ∈ o.file, IsName name) :
    ∀ name ∈ o'.file, IsName name := by
  induction h with
  | nil => exact ho
  | noColour _ _ ih => exact ih ho
  | slots _ _ ih => exact ih ho
  | file _ hname _ ih => exact ih fun _ h => Option.some.inj h ▸ hname

theorem Adds.perm (h : Adds o front o') : (o.written ++ front).Perm o'.written := by
  induction h with
  | nil o => rw [List.append_nil]
  | @noColour o o' rest hoff _ ih =>
    rw [written_noColour hoff] at ih
    exact List.perm_middle.trans ih
  | @slots o o' rest hoff _ ih =>
    exact List.perm_middle.trans (((written_slots hoff).symm.append_right rest).trans ih)
  | @file o o' name rest hnone _ _ ih =>
    exact List.perm_middle.trans (((written_file hnone name).symm.append_right rest).trans ih)

/-- What was read and what is still to be read is what is written down in the end. -/
theorem adds_of_perm (h : ∀ name ∈ o.file, IsName name) (h' : ∀ name ∈ o'.file, IsName name)
    (hperm : (o.written ++ front).Perm o'.written) : Adds o front o' := by
  induction front generalizing o with
  | nil =>
    rw [List.append_nil] at hperm
    obtain rfl := eq_of_written_perm h h' hperm
    exact .nil o
  | cons arg rest ih =>
    have hmiddle : (arg :: (o.written ++ rest)).Perm o'.written := List.perm_middle.symm.trans hperm
    have hnew : arg ∉ o.written := fun hold =>
      (List.nodup_cons.mp (hmiddle.nodup_iff.mpr (nodup_written h'))).1
        (List.mem_append_left rest hold)
    have hnot := mt mem_written.mpr hnew
    simp only [not_or, not_and] at hnot
    obtain ⟨hcolour, hslots, hfile⟩ := hnot
    rcases mem_written.mp (hmiddle.mem_iff.mp List.mem_cons_self) with
      ⟨-, rfl⟩ | ⟨-, rfl⟩ | hname
    · have hoff : o.noColour = false := Bool.eq_false_iff.mpr fun hon => hcolour hon rfl
      exact .noColour hoff (ih h (by rw [written_noColour hoff]; exact hmiddle))
    · have hoff : o.slots = false := Bool.eq_false_iff.mpr fun hon => hslots hon rfl
      exact .slots hoff (ih h (((written_slots hoff).append_right rest).trans hmiddle))
    · have hnone : o.file = none := by
        refine Option.eq_none_iff_forall_ne_some.mpr fun name hsome => ?_
        -- that name would be written down in the end as well, where there is but one
        have hend := hperm.mem_iff.mp (List.mem_append_left (arg :: rest)
          ((mem_written_of_isName (h name hsome)).mpr hsome))
        rw [mem_written_of_isName (h name hsome), hname] at hend
        exact hfile (hend ▸ hsome)
      refine .file hnone (h' arg hname) (ih (fun _ h => Option.some.inj h ▸ h' arg hname) ?_)
      exact ((written_file hnone arg).append_right rest).trans hmiddle

end Options

namespace Request

open Options

variable {o o' : Options} {arg name : String} {args front back rest : List String}

/-! ## Reading arguments -/

theorem withFile_eq_run {next : Options → Request} :
    withFile o name next = .run o' ↔
      name ≠ "" ∧ o.file = none ∧ next { o with file := some name } = .run o' := by
  unfold withFile
  cases hempty : name.isEmpty <;> cases o.file <;>
    simp [← String.isEmpty_iff, hempty]

theorem filesOnly_eq_run : filesOnly o back = .run o' ↔
    (∀ name ∈ back, name ≠ "") ∧ o.file.toList ++ back = o'.file.toList ∧
      o.noColour = o'.noColour ∧ o.slots = o'.slots := by
  induction back generalizing o with
  | nil =>
    rw [filesOnly, run.injEq, List.append_nil]
    constructor
    · rintro rfl
      exact ⟨List.forall_mem_nil _, rfl, rfl, rfl⟩
    · rintro ⟨-, hfile, hcolour, hslots⟩
      exact eq_of_parts hfile hcolour hslots
  | cons name rest ih =>
    rw [filesOnly, withFile_eq_run, ih, List.forall_mem_cons]
    constructor
    · rintro ⟨hne, hnone, hrest, hfile, hsame⟩
      exact ⟨⟨hne, hrest⟩, by rw [hnone]; exact hfile, hsame⟩
    · rintro ⟨⟨hne, hrest⟩, hfile, hsame⟩
      have hlen := congrArg List.length hfile
      have hnone : o.file = none := by
        cases hfile' : o.file with
        | none => rfl
        | some other =>
          cases h' : o'.file <;> simp [hfile', h'] at hlen
      rw [hnone] at hfile
      exact ⟨hne, hnone, hrest, hfile, hsame⟩

/-- An argument that stands for itself is read as the file. -/
theorem read_name (h : IsName name) (o : Options) (rest : List String) :
    read o (name :: rest) = withFile o name fun o => read o rest := by
  obtain ⟨hne, hdash⟩ := h
  conv => lhs; unfold read
  split
  · simp at hdash
  · simp at hdash
  · simp at hdash
  · simp at hdash
  · simp at hdash
  · next hlist =>
    rcases hdash with rfl | hdash
    · simp at hlist
    · simp [hlist] at hdash
  · next hlist =>
    rcases hdash with rfl | hdash
    · simp at hlist
    · simp [hlist] at hdash
  · rfl

theorem ofShort_ne_run (cs : List Char) (o' : Options) : ofShort cs ≠ .run o' := by
  unfold ofShort
  split <;> simp

/-- What may be done with one argument on the way to running. -/
theorem read_cons_eq_run (h : read o (arg :: rest) = .run o') :
    (arg = "--" ∧ filesOnly o rest = .run o') ∨
    (arg = "--no-color" ∧ o.noColour = false ∧
      read { o with noColour := true } rest = .run o') ∨
    (arg = "--slots" ∧ o.slots = false ∧ read { o with slots := true } rest = .run o') ∨
    IsName arg ∧ o.file = none ∧ read { o with file := some arg } rest = .run o' := by
  rw [read.eq_def] at h
  dsimp only at h
  split at h
  · exact .inl ⟨rfl, h⟩
  · cases h
  · cases h
  · split at h
    · cases h
    · next hoff => exact .inr (.inl ⟨rfl, Bool.eq_false_iff.mpr hoff, h⟩)
  · split at h
    · cases h
    · next hoff => exact .inr (.inr (.inl ⟨rfl, Bool.eq_false_iff.mpr hoff, h⟩))
  · cases h
  · exact absurd h (ofShort_ne_run _ _)
  · next arg _ _ _ _ _ _ _ _ hdash =>
    obtain ⟨hne, hnone, hnext⟩ := withFile_eq_run.mp h
    refine .inr (.inr (.inr ⟨⟨hne, ?_⟩, hnone, hnext⟩))
    -- what begins with a dash has nothing behind it
    by_cases hhead : arg.toList.head? = some '-'
    · obtain ⟨cs, hlist⟩ := List.head?_eq_some_iff.mp hhead
      cases cs with
      | nil => exact .inl (String.toList_inj.mp hlist)
      | cons c cs => exact absurd hlist (hdash c cs)
    · exact .inr hhead

/-! ## All arguments -/

/-- Arguments in front are read one by one. -/
theorem read_append_of_adds (h : Adds o front o') (back : List String) :
    read o (front ++ back) = read o' back := by
  induction h with
  | nil => rfl
  | noColour hoff _ ih =>
    rw [List.cons_append, ← ih]
    conv => lhs; unfold read
    simp [hoff]
  | slots hoff _ ih =>
    rw [List.cons_append, ← ih]
    conv => lhs; unfold read
    simp [hoff]
  | file hnone hname _ ih =>
    rw [List.cons_append, read_name hname, ← ih, withFile, hnone]
    simp [hname.1]

theorem read_eq_run : read o args = .run o' ↔ Adds o args o' ∨
    ∃ front back o₁, args = front ++ "--" :: back ∧ Adds o front o₁ ∧
      filesOnly o₁ back = .run o' := by
  constructor
  · intro h
    induction args generalizing o with
    | nil =>
      cases h
      exact .inl (.nil o')
    | cons arg rest ih =>
      -- one argument is read in front of what the rest adds
      have step : ∀ {o₁ : Options}, read o₁ rest = .run o' →
          (∀ {args : List String} {o₂ : Options}, Adds o₁ args o₂ → Adds o (arg :: args) o₂) →
          Adds o (arg :: rest) o' ∨ ∃ front back o₂, arg :: rest = front ++ "--" :: back ∧
            Adds o front o₂ ∧ filesOnly o₂ back = .run o' := by
        intro o₁ hrest hadds
        rcases ih hrest with hplain | ⟨front, back, o₂, rfl, hfront, hback⟩
        · exact .inl (hadds hplain)
        · exact .inr ⟨arg :: front, back, o₂, rfl, hadds hfront, hback⟩
      rcases read_cons_eq_run h with ⟨rfl, hfiles⟩ | ⟨rfl, hoff, hrest⟩ | ⟨rfl, hoff, hrest⟩ |
        ⟨hname, hnone, hrest⟩
      · exact .inr ⟨[], rest, o, rfl, .nil o, hfiles⟩
      · exact step hrest (.noColour hoff)
      · exact step hrest (.slots hoff)
      · exact step hrest (.file hnone hname)
  · rintro (h | ⟨front, back, o₁, rfl, hfront, hback⟩)
    · have hall := read_append_of_adds h []
      rwa [List.append_nil] at hall
    · rw [read_append_of_adds hfront]
      exact hback

/-- The program runs with some options if they are what its arguments write down. -/
theorem ofArgs_eq_run_iff : ofArgs args = .run o ↔ o.Written args := by
  unfold ofArgs
  rw [read_eq_run]
  constructor
  · rintro (h | ⟨front, back, o₁, rfl, hfront, hback⟩)
    · exact .plain h.perm (h.isName (by simp))
    · obtain ⟨hne, hfile, hcolour, hslots⟩ := filesOnly_eq_run.mp hback
      have hflags : o₁.flags = o.flags := by
        unfold flags
        rw [hcolour, hslots]
      have hperm : front.Perm (o.flags ++ o₁.file.toList) := hflags ▸ hfront.perm
      exact .dashes hperm
        (fun name hname => hfront.isName (by simp) name (Option.mem_toList.mp hname)) hne hfile
  · intro h
    cases h with
    | plain hperm hname => exact .inl (adds_of_perm (by simp) hname hperm)
    | @dashes front back names hperm hname hne hfile =>
      obtain ⟨first?, rfl⟩ : ∃ first? : Option String, names = first?.toList := by
        cases names with
        | nil => exact ⟨none, rfl⟩
        | cons first rest =>
          have hlen := congrArg List.length hfile
          cases hfile' : o.file <;> simp [hfile'] at hlen
          exact ⟨some first, by rw [hlen.1]; rfl⟩
      refine .inr ⟨front, back, { o with file := first? }, rfl,
        adds_of_perm (by simp) (fun name h => hname name (Option.mem_toList.mpr h)) hperm,
        filesOnly_eq_run.mpr ⟨hne, hfile, rfl, rfl⟩⟩

end Request

end FlatScope.CommandLine
