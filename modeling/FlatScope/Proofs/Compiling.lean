import FlatScope.CommandLine.Run
import FlatScope.Proofs.Arguments
import FlatScope.Proofs.Declarations
import FlatScope.Proofs.Descending
import FlatScope.Proofs.Lexing
import FlatScope.Proofs.Room

/-!
# Compiling a file

A text that is read as a program gets through all stages unless some function has more locals than
a frame has slots (`CommandLine.answer_file`). What is then listed of a function comes from its
declaration alone (`FunctionDecl.line`).
-/

namespace FlatScope

namespace FunctionDecl

/-- What is known of the function when it is compiled with slots. -/
def signature (f : FunctionDecl) : Signature where
  name := f.name
  result := some f.result
  params := some (f.params.map (·.ty))
  frame := some (1 + f.locals.length)

def line (f : FunctionDecl) : String :=
  f.name ++ methodDescriptor f.result (f.params.map (·.ty)) ++ " locals=" ++
    toString (1 + f.locals.length) ++ "\n"

end FunctionDecl

/-- The tree below `root` stands for the program `p`, which is what the text says. -/
structure IsProgram (text : String) (ast : Ast) (root : NodeId) (p : Program) : Prop where
  intact : ast.Intact root
  unit : ∃ n, ast.get? root = some n ∧ n.kind.opensScope = true
  piece?_eq : ast.piece? root = some (.program p)
  spells : Spells ((Lexer.lex text.toList).map (·.token)) p.words

/-- What is read is the tree of a program. -/
theorem Ast.exists_isProgram {source : Nat} {text : String} {ast : Ast} {root : NodeId}
    (h : parse .unit source text = .ok (ast, root)) : ∃ p, IsProgram text ast root p := by
  obtain ⟨p, o, -, hspells, rfl, hadds, hp⟩ := exists_of_ofLexemes h
  obtain ⟨hids, hout⟩ := outline_of_adds_empty hadds
  have htree := isTree_of_adds_empty hadds hp
  have hshows : ast.Shows o := hadds.shows o List.mem_cons_self
  refine ⟨p, hshows.intact (hids.nodup_iff.mpr (Arena.keys_nodup _)) fun n hn => ?_, ?_, ?_,
    hspells⟩
  · exact htree.no_error _ n (hshows.get?_of_mem hn)
  · obtain ⟨n, hn, hadmits⟩ := htree.root_unit
    refine ⟨n, hn, ?_⟩
    cases hk : n.kind <;> rw [hk] at hadmits <;> first | rfl | cases hadmits
  · rw [piece?, hout, hp]

section

variable {α β : Type} {R : α → β → Prop} {as : List α} {bs : List β}

theorem exists_right_of_forall₂ (h : List.Forall₂ R as bs) {a : α} (ha : a ∈ as) :
    ∃ b ∈ bs, R a b := by
  induction h with
  | nil => cases ha
  | cons hab _ ih =>
    rcases List.mem_cons.mp ha with rfl | ha
    · exact ⟨_, List.mem_cons_self, hab⟩
    · obtain ⟨b, hb, hab⟩ := ih ha
      exact ⟨b, List.mem_cons_of_mem _ hb, hab⟩

theorem exists_left_of_forall₂ (h : List.Forall₂ R as bs) {b : β} (hb : b ∈ bs) :
    ∃ a ∈ as, R a b := exists_right_of_forall₂ h.flip hb

theorem filterMap_eq_map_of_forall₂ {γ : Type} {g : α → Option γ} {k : β → γ}
    (h : List.Forall₂ R as bs) (hg : ∀ a ∈ as, ∀ b ∈ bs, R a b → g a = some (k b)) :
    as.filterMap g = bs.map k := by
  induction h with
  | nil => rfl
  | cons hab _ ih =>
    have hfirst := hg _ List.mem_cons_self _ List.mem_cons_self hab
    rw [List.filterMap_cons_some hfirst, List.map_cons, ih fun a ha b hb =>
      hg a (List.mem_cons_of_mem _ ha) b (List.mem_cons_of_mem _ hb)]

end

namespace IsProgram

variable {text : String} {ast : Ast} {root : NodeId} {p : Program} {f : Place} {n : Node}
  {fn : FunctionDecl}

theorem shows (h : IsProgram text ast root p) : ast.Shows (ast.outline root) :=
  h.intact.shows_outline

/-- The function nodes are the functions of the program. -/
theorem forall_declares (h : IsProgram text ast root p) : List.Forall₂ ast.Declares
    ((ast.descendants root).filter (·.kind.naming = .frame)) p.functions := by
  rw [h.shows.unfolds.descendants_eq]
  exact h.shows.forall_functions h.piece?_eq

/-- No function declares a name that is spelled like a keyword. -/
theorem ofText?_eq_none (h : IsProgram text ast root p) (hfn : fn ∈ p.functions) {name : String}
    (hname : name ∈ fn.declared) : Keyword.ofText? name = none :=
  Lexer.ofText?_eq_none_of_spells h.spells (Program.name_mem_words hfn hname)

/-- The locals of a function are `this` and the different names that it declares. -/
theorem locals_eq (h : IsProgram text ast root p) (hfn : fn ∈ p.functions) (hd : ast.Declares n fn)
    (hf : f ∈ ast.places root) (hn : f.node? = some n) :
    ast.locals root f.path = "this" :: fn.locals := by
  have hthis : ∀ name ∈ fn.declared, (!name == "this") = true := by
    intro name hname
    have hne : name ≠ "this" := by
      rintro rfl
      cases h.ofText?_eq_none hfn hname
    simpa using hne
  unfold Ast.locals FunctionDecl.locals
  rw [hd.declaredIn_eq h.shows h.piece?_eq hf hn, List.eraseDups_cons,
    List.filter_eq_self.mpr hthis]

theorem exists_function (h : IsProgram text ast root p) (hf : f ∈ ast.places root)
    (hn : f.node? = some n) (hframe : n.kind.naming = .frame) :
    ∃ fn ∈ p.functions, ast.Declares n fn := by
  have hmem : n ∈ (ast.descendants root).filter (·.kind.naming = .frame) :=
    List.mem_filter.mpr ⟨h.intact.acyclic.mem_descendants.mpr ⟨f, hf, hn⟩, decide_eq_true hframe⟩
  exact exists_right_of_forall₂ h.forall_declares hmem

theorem exists_place (h : IsProgram text ast root p) (hfn : fn ∈ p.functions) :
    ∃ f ∈ ast.places root, ∃ n, f.node? = some n ∧ ast.Declares n fn := by
  obtain ⟨n, hn, hd⟩ := exists_left_of_forall₂ h.forall_declares hfn
  obtain ⟨f, hf, hn⟩ := h.intact.acyclic.mem_descendants.mp (List.mem_of_mem_filter hn)
  exact ⟨f, hf, n, hn, hd⟩

/-- A program has room if no function has too many locals. -/
theorem hasRoom_iff (h : IsProgram text ast root p) :
    ast.HasRoom root ↔ ∀ fn ∈ p.functions, fn.locals.length ≤ 65534 := by
  constructor
  · intro hroom fn hfn
    obtain ⟨f, hf, n, hn, hd⟩ := h.exists_place hfn
    have hfun : Slots.IsFunction f := ⟨n, hn, hd.1⟩
    have hle := hroom f hf hfun.opens
    rw [Slots.reserved_eq_locals hf hfun, h.locals_eq hfn hd hf hn, List.length_cons] at hle
    exact Nat.le_of_succ_le_succ hle
  · intro hle f hf hopens
    obtain ⟨n, hn, -⟩ := h.intact.sound hf
    by_cases hframe : n.kind.naming = .frame
    · obtain ⟨fn, hfn, hd⟩ := h.exists_function hf hn hframe
      rw [Slots.reserved_eq_locals hf ⟨n, hn, hframe⟩, h.locals_eq hfn hd hf hn, List.length_cons]
      exact Nat.succ_le_succ (hle fn hfn)
    · rw [Place.opens_eq hn] at hopens
      rw [Slots.reserved_eq_declared hf hn hframe,
        h.shows.declaredIn_eq_nil h.piece?_eq hf hn hopens hframe]
      exact Nat.zero_le _

/-- The scopes of a program can be resolved, whatever was attached before. -/
theorem resolve_ok (h : IsProgram text ast root p) (facts : Annotations) (pools : Pools) :
    (Resolve.traverse ast root { facts, pools }).1 = .ok () := by
  obtain ⟨n, hn, hopens⟩ := h.unit
  obtain ⟨r, _, hresolve, -⟩ := Resolve.traverse_of_sound facts pools hn hopens
    h.intact.acyclic.unfolds_outline fun p hp => h.intact.sound hp
  rw [hresolve]

/-- What is listed of the function nodes is what is known of the functions of the program. -/
theorem signatures_eq (h : IsProgram text ast root p) {facts : Annotations} (pools : Pools)
    (hframes : ∀ f ∈ ast.places root, ∀ n, f.node? = some n → n.kind.naming = .frame →
      facts.fetch .frame n.id = some (ast.locals root f.path).length) :
    Compiled.signatures ⟨ast, root, facts, pools⟩ = p.functions.map FunctionDecl.signature := by
  have hsignature : ∀ n ∈ ast.descendants root, ∀ fn ∈ p.functions, ast.Declares n fn →
      Compiled.signature? ⟨ast, root, facts, pools⟩ n = some fn.signature := by
    intro n hn fn hfn hd
    obtain ⟨f, hf, hn⟩ := h.intact.acyclic.mem_descendants.mp hn
    have hframe := hframes f hf n hn hd.1
    rw [h.locals_eq hfn hd hf hn, List.length_cons, Nat.add_comm] at hframe
    obtain ⟨ty, ps, body, hkind, hty, hps⟩ := hd.types
    unfold Compiled.signature?
    simp only [hkind, hty, hps, hframe]
    rfl
  have hother : ∀ n, n.kind.naming ≠ .frame →
      Compiled.signature? ⟨ast, root, facts, pools⟩ n = none := by
    intro n hn
    unfold Compiled.signature?
    split
    · next hkind => exact absurd (congrArg NodeKind.naming hkind) hn
    · rfl
  have hfilter : (ast.descendants root).filterMap (Compiled.signature? ⟨ast, root, facts, pools⟩) =
      ((ast.descendants root).filter (·.kind.naming = .frame)).filterMap
        (Compiled.signature? ⟨ast, root, facts, pools⟩) := by
    rw [List.filterMap_filter]
    refine List.filterMap_congr fun n _ => ?_
    split
    · rfl
    · next hn => exact hother n (by simpa using hn)
  exact hfilter.trans (filterMap_eq_map_of_forall₂ h.forall_declares fun n hn fn hfn hd =>
    hsignature n (List.mem_of_mem_filter hn) fn hfn hd)

end IsProgram

/-! ## Compiling -/

section

variable {text : String} {ast : Ast} {root : NodeId} {p : Program}

theorem compile_of_error {e : SyntaxError} (slots : Bool)
    (hparse : Ast.parse .unit 0 text = .error e) :
    compile 0 text slots = .error (.notInLanguage e) := by
  unfold compile
  rw [hparse]

theorem exists_compiled {slots : Bool} (hparse : Ast.parse .unit 0 text = .ok (ast, root))
    (h : IsProgram text ast root p) (hroom : slots = true → ast.HasRoom root) :
    ∃ facts pools, compile 0 text slots = .ok ⟨ast, root, facts, pools⟩ ∧ (slots = true →
      Compiled.signatures ⟨ast, root, facts, pools⟩ = p.functions.map FunctionDecl.signature) := by
  obtain ⟨n, hn, hopens⟩ := h.unit
  obtain ⟨r, hresolve, hnumbers, -⟩ := Slots.exists_resolved h.intact hn hopens
  unfold compile
  simp only [hparse]
  unfold analyse
  simp only [hresolve]
  cases slots with
  | false => exact ⟨r.facts, r.pools, rfl, fun hslots => nomatch hslots⟩
  | true =>
    obtain ⟨s, hslots, hframes⟩ := hnumbers (hroom rfl)
    simp only [hslots]
    exact ⟨s.facts, s.pools, rfl, fun _ => h.signatures_eq s.pools hframes⟩

theorem exists_defective (hparse : Ast.parse .unit 0 text = .ok (ast, root))
    (h : IsProgram text ast root p) (hfull : ¬ ast.HasRoom root) :
    ∃ d, compile 0 text true = .error (.defective d) := by
  obtain ⟨n, hn, hopens⟩ := h.unit
  obtain ⟨r, hresolve, -, hfails⟩ := Slots.exists_resolved h.intact hn hopens
  obtain ⟨d, s, hslots⟩ := hfails hfull
  unfold compile
  simp only [hparse]
  unfold analyse
  simp only [hresolve, hslots]
  exact ⟨d, rfl⟩

end

namespace CommandLine

/-- What the program leaves when it was given a text; `colour` says whether it writes in colour. -/
structure Answers (slots colour : Bool) (text : String) (outcome : Outcome) : Prop where
  /-- it succeeds if the text is a program and, with slots, no function has too many locals -/
  exit_eq_zero_iff : outcome.exit = 0 ↔ ∃ ast root p, Ast.parse .unit 0 text = .ok (ast, root) ∧
    ast.piece? root = some (.program p) ∧
      (slots = true → ∀ f ∈ p.functions, f.locals.length ≤ 65534)
  failed : outcome.exit ≠ 0 → outcome.exit = 1 ∧ outcome.output = ""
  /-- what is read is the program that the text spells, and its scopes can be resolved -/
  resolved : ∀ ast root, Ast.parse .unit 0 text = .ok (ast, root) →
    (∃ p, ast.piece? root = some (.program p) ∧
      Spells ((Lexer.lex text.toList).map (·.token)) p.words) ∧
      ∀ facts pools, (Resolve.traverse ast root { facts, pools }).1 = .ok ()
  /-- the output is the tree and, with slots, an empty line and a line for every function -/
  output_eq : outcome.exit = 0 → ∃ c p, compile 0 text slots = .ok c ∧
    Ast.parse .unit 0 text = .ok (c.ast, c.root) ∧ c.ast.piece? c.root = some (.program p) ∧
      outcome.output = c.dump colour ++
        if slots then "\n" ++ String.join (p.functions.map FunctionDecl.line) else ""
  /-- nothing about a function is unknown -/
  known : ∀ c, compile 0 text slots = .ok c → slots = true → ∀ s ∈ c.signatures,
    s.descriptor? ≠ none ∧ s.frame ≠ none ∧ s.frame ≠ some 0

section

variable {slots colour : Bool} {name text : String} {ast : Ast} {root : NodeId} {p : Program}

theorem failed_exit_ne (error : String) (report : Option Report) :
    (failed error report).exit ≠ 0 := show (1 : UInt8) ≠ 0 by decide

/-- A text that is not in the language. -/
theorem answers_of_not_parsed {e : SyntaxError} (hparse : Ast.parse .unit 0 text = .error e)
    (error : String) (report : Option Report) :
    Answers slots colour text (failed error report) := by
  have hne := failed_exit_ne error report
  have hcompile := compile_of_error slots hparse
  refine ⟨⟨fun h => absurd h hne, ?_⟩, fun _ => ⟨rfl, rfl⟩, ?_, fun h => absurd h hne, ?_⟩
  · rintro ⟨ast, root, p, hok, -⟩
    cases hparse.symm.trans hok
  · intro ast root hok
    cases hparse.symm.trans hok
  · intro c hok
    cases hcompile.symm.trans hok

/-- A program with a function that has too many locals. -/
theorem answers_of_full (hparse : Ast.parse .unit 0 text = .ok (ast, root))
    (h : IsProgram text ast root p) (hfull : ¬ ast.HasRoom root) (error : String)
    (report : Option Report) : Answers true colour text (failed error report) := by
  have hne := failed_exit_ne error report
  obtain ⟨d, hcompile⟩ := exists_defective hparse h hfull
  refine ⟨⟨fun h => absurd h hne, ?_⟩, fun _ => ⟨rfl, rfl⟩, ?_, fun h => absurd h hne, ?_⟩
  · rintro ⟨ast', root', q, hok, hq, hle⟩
    cases hparse.symm.trans hok
    cases h.piece?_eq.symm.trans hq
    exact absurd (h.hasRoom_iff.mpr (hle rfl)) hfull
  · intro ast' root' hok
    cases hparse.symm.trans hok
    exact ⟨⟨p, h.piece?_eq, h.spells⟩, h.resolve_ok⟩
  · intro c hok
    cases hcompile.symm.trans hok

/-- Any other program. -/
theorem answers_of_room (hparse : Ast.parse .unit 0 text = .ok (ast, root))
    (h : IsProgram text ast root p) (hroom : slots = true → ast.HasRoom root) :
    ∃ c, compile 0 text slots = .ok c ∧
      Answers slots colour text { output := listing c colour slots } := by
  obtain ⟨facts, pools, hcompile, hsignatures⟩ := exists_compiled hparse h hroom
  refine ⟨_, hcompile, ⟨fun _ => ⟨ast, root, p, hparse, h.piece?_eq, fun hslots =>
      h.hasRoom_iff.mp (hroom hslots)⟩, fun _ => rfl⟩, fun hne => absurd rfl hne, ?_,
    fun _ => ⟨_, p, hcompile, hparse, h.piece?_eq, ?_⟩, ?_⟩
  · intro ast' root' hok
    cases hparse.symm.trans hok
    exact ⟨⟨p, h.piece?_eq, h.spells⟩, h.resolve_ok⟩
  · show listing _ colour slots = _
    unfold listing
    cases slots with
    | false => rfl
    | true =>
      rw [hsignatures rfl, List.map_map]
      rfl
  · intro c hok hslots s hs
    cases hcompile.symm.trans hok
    rw [hsignatures hslots] at hs
    obtain ⟨fn, -, rfl⟩ := List.mem_map.mp hs
    refine ⟨Option.some_ne_none _, Option.some_ne_none _, fun hzero => ?_⟩
    have hzero : 1 + fn.locals.length = 0 := Option.some.inj hzero
    omega

/-- Compiling a text. -/
theorem answers_compileText (options : Options) (colour : Bool) (name text : String) :
    Answers options.slots (colour && !options.noColour) text
      (compileText options colour name text) := by
  unfold compileText
  cases hparse : Ast.parse .unit 0 text with
  | error e =>
    rw [compile_of_error options.slots hparse]
    exact answers_of_not_parsed hparse _ _
  | ok r =>
    obtain ⟨ast, root⟩ := r
    obtain ⟨p, h⟩ := Ast.exists_isProgram hparse
    by_cases hroom : options.slots = true → ast.HasRoom root
    · obtain ⟨c, hcompile, hanswers⟩ := answers_of_room hparse h hroom
      rw [hcompile]
      exact hanswers
    · obtain ⟨hslots, hfull⟩ := Classical.not_imp.mp hroom
      obtain ⟨d, hcompile⟩ := exists_defective hparse h hfull
      rw [hslots, hcompile]
      exact answers_of_full hparse h hfull _ _

end

/--
Given a file that can be read, with any choice of the options and in whatever way it is written
down, the program succeeds exactly if the text is a program and, with slots, no function has too
many locals; its output then tells what the text declares. Otherwise it fails and there is no
output. The scopes of a program can always be resolved.
-/
theorem answer_file {m : Type → Type} [Monad m] [LawfulMonad m]
    (read : String → m (Except ReadFailure String)) (colour noColour slots : Bool)
    {name text : String} (hname : name ≠ "") (hread : read name = pure (.ok text)) :
    (∃ args, Options.Written ⟨some name, noColour, slots⟩ args) ∧
      ∀ args, Options.Written ⟨some name, noColour, slots⟩ args →
        ∃ outcome, answer read colour args = pure outcome ∧
          Answers slots (colour && !noColour) text outcome := by
  refine ⟨⟨_, Options.written_flags noColour slots hname⟩, fun args hargs => ?_⟩
  have hrun := Request.ofArgs_eq_run_iff.mpr hargs
  refine ⟨_, ?_, answers_compileText ⟨some name, noColour, slots⟩ colour name text⟩
  unfold answer
  simp only [hrun, hread, pure_bind]

/-- A function with two parameters and a declaration that repeats one of them. -/
theorem answer_file_method : ∃ outcome,
    Options.Written ⟨some "a", true, true⟩ ["--slots", "a", "--no-color"] ∧
    answer (m := Id) (fun _ => pure (.ok "class A { A f(int x, A y) { if (x) int x; } }")) true
        ["--slots", "a", "--no-color"] = pure outcome ∧
      outcome.exit = 0 ∧
      Answers true false "class A { A f(int x, A y) { if (x) int x; } }" outcome := by
  have hargs : Options.Written ⟨some "a", true, true⟩ ["--slots", "a", "--no-color"] :=
    .plain (by decide) (by simp [IsName])
  obtain ⟨-, hall⟩ := answer_file (m := Id)
    (fun _ => pure (.ok "class A { A f(int x, A y) { if (x) int x; } }")) true true true
    (by decide : "a" ≠ "") rfl
  obtain ⟨outcome, hanswer, hanswers⟩ := hall _ hargs
  have hexit : (answer (m := Id)
      (fun _ => pure (.ok "class A { A f(int x, A y) { if (x) int x; } }")) true
      ["--slots", "a", "--no-color"]).exit = 0 := by decide +kernel
  rw [hanswer] at hexit
  exact ⟨outcome, hargs, hanswer, hexit, hanswers⟩

end CommandLine

end FlatScope
