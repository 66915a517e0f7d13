import FlatScope.Proofs.Compiling
import FlatScope.Proofs.Munch
import FlatScope.Proofs.Quoting

/-!
# Descriptors

The descriptor of a type shows where it ends (`Ty.delimits_descriptor`): it is one letter, or `L`
and the name of a class up to a semicolon, and identifiers hold neither a semicolon nor a slash. So
a method descriptor tells the types it was made of, and functions of programs have the same one
just if they are declared with the same types (`methodDescriptor_identifies`).
-/

namespace FlatScope

open Lexer

namespace Ty

variable {a b : Ty} {v w : List Char}

/-- Classes are named by identifiers. -/
def Nameable : Ty → Prop
  | named name => name.toList ∈ Pattern.identifier.language
  | _ => True

/-- The class of the values, by its name in descriptors. -/
def class? : Ty → Option (List Char)
  | string => some "java/lang/String".toList
  | named name => some name.toList
  | _ => none

theorem descriptor_of_class? (h : a.class? = some w) :
    a.descriptor.toList = 'L' :: (w ++ [';']) := by
  cases a with
  | string =>
    cases h
    decide
  | named name =>
    cases h
    unfold descriptor
    rw [String.toList_append, String.toList_append]
    rfl
  | _ => cases h

/-- The other types have a letter each. -/
theorem exists_letter (h : a.class? = none) :
    ∃ c, a.descriptor.toList = [c] ∧ c ≠ 'L' ∧ c ≠ ')' := by
  cases a with
  | int => exact ⟨'I', by decide⟩
  | float => exact ⟨'F', by decide⟩
  | void => exact ⟨'V', by decide⟩
  | _ => cases h

theorem eq_of_letter (ha : a.class? = none) (hb : b.class? = none)
    (h : a.descriptor.toList = b.descriptor.toList) : a = b := by
  cases a <;> cases ha <;> cases b <;> cases hb <;> first | rfl | exact absurd h (by decide)

theorem semicolon_notMem_class? (ha : a.Nameable) (h : a.class? = some w) : ';' ∉ w := by
  cases a with
  | string =>
    cases h
    decide
  | named name =>
    cases h
    exact fun hmem => absurd (isWordPart_of_mem_identifier ha ';' hmem) (by decide)
  | _ => cases h

/-- No class of a program is taken for that of strings. -/
theorem string_class?_ne {name : String} (h : (named name).Nameable) :
    string.class? ≠ (named name).class? := by
  intro heq
  have hslash : '/' ∈ name.toList := Option.some.inj heq ▸ by decide
  exact absurd (isWordPart_of_mem_identifier h '/' hslash) (by decide)

theorem eq_of_class? (ha : a.Nameable) (hb : b.Nameable) (hv : a.class? = some w)
    (hw : b.class? = some w) : a = b := by
  have heq := hv.trans hw.symm
  cases a with
  | string =>
    cases b with
    | string => rfl
    | named name => exact absurd heq (string_class?_ne hb)
    | _ => cases hw
  | named name =>
    cases b with
    | string => exact absurd heq.symm (string_class?_ne ha)
    | named name' => exact congrArg named (String.toList_inj.mp (Option.some.inj heq))
    | _ => cases hw
  | _ => cases hv

/-- Where the descriptor of a type begins, only that one does, and its end is known. -/
theorem delimits_descriptor : Delimits Nameable fun a => a.descriptor.toList := by
  intro a b s t ha hb h
  cases hv : a.class? with
  | none =>
    obtain ⟨c, hc, hne, -⟩ := exists_letter hv
    cases hw : b.class? with
    | none =>
      obtain ⟨d, hd, -⟩ := exists_letter hw
      simp only [hc, hd] at h
      obtain ⟨rfl, hrest⟩ := List.cons.inj h
      exact ⟨eq_of_letter hv hw (hc.trans hd.symm), hrest⟩
    | some w =>
      simp only [hc, descriptor_of_class? hw] at h
      exact absurd (List.cons.inj h).1 hne
  | some v =>
    cases hw : b.class? with
    | none =>
      obtain ⟨d, hd, hne, -⟩ := exists_letter hw
      simp only [hd, descriptor_of_class? hv] at h
      exact absurd (List.cons.inj h).1.symm hne
    | some w =>
      simp only [descriptor_of_class? hv, descriptor_of_class? hw] at h
      obtain ⟨rfl, hrest⟩ := delimits_terminated ';' v w s t (semicolon_notMem_class? ha hv)
        (semicolon_notMem_class? hb hw) (List.cons.inj h).2
      exact ⟨eq_of_class? ha hb hv hw, hrest⟩

/-- The end of the parameters is no type. -/
theorem rightParen_ne_descriptor (a : Ty) (s u : List Char) :
    ')' :: s ≠ a.descriptor.toList ++ u := by
  cases hw : a.class? with
  | none =>
    obtain ⟨c, hc, -, hne⟩ := exists_letter hw
    rw [hc]
    exact fun heq => hne (List.cons.inj heq).1.symm
  | some w =>
    rw [descriptor_of_class? hw]
    exact fun heq => absurd (List.cons.inj heq).1 (by decide)

end Ty

variable {r r' : Ty} {ps ps' : List Ty}

theorem toList_methodDescriptor (r : Ty) (ps : List Ty) : (methodDescriptor r ps).toList =
    '(' :: (ps.flatMap (·.descriptor.toList) ++ ')' :: r.descriptor.toList) := by
  unfold methodDescriptor
  rw [String.toList_append, String.toList_append, String.toList_append, String.toList_join,
    List.flatMap_map, List.append_assoc, List.append_assoc]
  rfl

theorem methodDescriptor_inj (hr : r.Nameable) (hr' : r'.Nameable) (hps : ∀ ty ∈ ps, ty.Nameable)
    (hps' : ∀ ty ∈ ps', ty.Nameable) (h : methodDescriptor r ps = methodDescriptor r' ps') :
    r = r' ∧ ps = ps' := by
  have hlist := congrArg String.toList h
  rw [toList_methodDescriptor, toList_methodDescriptor] at hlist
  obtain ⟨rfl, hresult⟩ := Ty.delimits_descriptor.flatMap
    (fun a u _ => a.rightParen_ne_descriptor _ u) (fun a u _ => a.rightParen_ne_descriptor _ u)
    hps hps' (List.cons.inj hlist).2
  have hcode : r.descriptor.toList ++ [] = r'.descriptor.toList ++ [] := by
    rw [(List.cons.inj hresult).2]
  exact ⟨(Ty.delimits_descriptor r r' [] [] hr hr' hcode).1, rfl⟩

/-! ## Types in programs -/

/-- What is read as an identifier matches the pattern of identifiers. -/
theorem Lexer.mem_identifier_of_mem_lex {cs : List Char} {l : Lexeme} {name : String}
    (h : l ∈ lex cs) (hl : l.token = .identifier name) :
    name.toList ∈ Pattern.identifier.language := by
  obtain ⟨c, cs', hstart, hword⟩ := exists_word_of_mem_lex h hl
  obtain ⟨front, rest, rfl, hlength, hrun⟩ := exists_run isWordPart cs'
  have hall : runLength isWordPart (c :: (front ++ rest)) = (c :: front).length := by
    rw [runLength, List.takeWhile_cons_of_pos (isWordPart_of_isWordStart hstart),
      List.length_cons, List.length_cons, ← hlength]
    rfl
  unfold word at hword
  dsimp only at hword
  rw [hall, ← List.cons_append, List.take_left] at hword
  split at hword
  · cases hword
  · cases hword
    rw [String.toList_ofList]
    exact mem_identifier_iff.mpr ⟨c, front, rfl, hstart, hrun.all⟩

variable {text : String} {ast : Ast} {root : NodeId} {p : Program} {f : FunctionDecl}

/-- Types in programs name identifiers. -/
theorem IsProgram.nameable_of_word {ty : Ty} (h : IsProgram text ast root p)
    (hty : ty.word ∈ p.words) : ty.Nameable := by
  cases ty with
  | named name =>
    obtain ⟨l, hl, htoken⟩ := exists_lexeme_of_spells h.spells hty
    exact mem_identifier_of_mem_lex hl htoken
  | _ => trivial

theorem IsProgram.nameable (h : IsProgram text ast root p) (hf : f ∈ p.functions) :
    f.result.Nameable ∧ ∀ ty ∈ f.params.map (·.ty), ty.Nameable := by
  have hwords : ∀ {w}, w ∈ f.member.words → w ∈ p.words := Program.mem_words_of_function hf
  refine ⟨h.nameable_of_word (hwords List.mem_cons_self), List.forall_mem_map.mpr fun q hq => ?_⟩
  have hmem : q.ty.word ∈ separated (f.params.map Param.words) :=
    mem_separated (List.mem_map_of_mem hq) List.mem_cons_self
  refine h.nameable_of_word (hwords ?_)
  unfold FunctionDecl.member Member.words
  simp [inParens, hmem]

namespace Compiled

variable {source : Nat} {c : Compiled} {n : Node} {s : Signature}

/-- A function of a program has the descriptor of the types it is declared with. -/
theorem exists_declares (h : Ast.parse .unit source text = .ok (c.ast, c.root))
    (hn : n ∈ c.ast.descendants c.root) (hs : c.signature? n = some s) :
    ∃ f, c.ast.Declares n f ∧ f.result.Nameable ∧ (∀ ty ∈ f.params.map (·.ty), ty.Nameable) ∧
      s.descriptor? = some (methodDescriptor f.result (f.params.map (·.ty))) := by
  obtain ⟨p, hp⟩ := Ast.exists_isProgram h
  obtain ⟨place, hplace, hnode⟩ := hp.intact.acyclic.mem_descendants.mp hn
  unfold signature? at hs
  split at hs
  · next ty name params body hkind =>
    obtain ⟨f, hf, hd⟩ := hp.exists_function hplace hnode (congrArg NodeKind.naming hkind)
    obtain ⟨hresult, hparams⟩ := hp.nameable hf
    obtain ⟨ty', params', body', hkind', hty, hps⟩ := hd.types
    obtain ⟨rfl, -, rfl, -⟩ := NodeKind.function.inj (hkind.symm.trans hkind')
    obtain rfl := Option.some.inj hs
    refine ⟨f, hd, hresult, hparams, ?_⟩
    unfold Signature.descriptor?
    rw [hty, hps]
    rfl
  · cases hs

end Compiled

/--
Descriptors tell signatures apart. Over types that name identifiers two method descriptors are equal
only if the types are, and two functions of parsed programs have the same descriptor just if their
parameters agree in number, order and type and their results agree.
-/
theorem methodDescriptor_identifies :
    (∀ (r r' : Ty) (ps ps' : List Ty), r.Nameable → r'.Nameable → (∀ ty ∈ ps, ty.Nameable) →
      (∀ ty ∈ ps', ty.Nameable) →
      (methodDescriptor r ps = methodDescriptor r' ps' ↔ r = r' ∧ ps = ps')) ∧
    ∀ (source source' : Nat) (text text' : String) (c c' : Compiled),
      Ast.parse .unit source text = .ok (c.ast, c.root) →
      Ast.parse .unit source' text' = .ok (c'.ast, c'.root) →
      ∀ n ∈ c.ast.descendants c.root, ∀ n' ∈ c'.ast.descendants c'.root, ∀ s s',
      c.signature? n = some s → c'.signature? n' = some s' →
      ∃ f f', c.ast.Declares n f ∧ c'.ast.Declares n' f' ∧
        s.descriptor? ≠ none ∧ s'.descriptor? ≠ none ∧
        (s.descriptor? = s'.descriptor? ↔
          f.params.map (·.ty) = f'.params.map (·.ty) ∧ f.result = f'.result) := by
  constructor
  · intro r r' ps ps' hr hr' hps hps'
    refine ⟨methodDescriptor_inj hr hr' hps hps', ?_⟩
    rintro ⟨rfl, rfl⟩
    rfl
  · intro source source' text text' c c' hparse hparse' n hn n' hn' s s' hs hs'
    obtain ⟨f, hd, hr, hps, hdescriptor⟩ := Compiled.exists_declares hparse hn hs
    obtain ⟨f', hd', hr', hps', hdescriptor'⟩ := Compiled.exists_declares hparse' hn' hs'
    rw [hdescriptor, hdescriptor']
    refine ⟨f, f', hd, hd', Option.some_ne_none _, Option.some_ne_none _, ?_⟩
    constructor
    · intro heq
      exact (methodDescriptor_inj hr hr' hps hps' (Option.some.inj heq)).symm
    · rintro ⟨hparams, hresult⟩
      rw [hparams, hresult]

/-- Classes whose names are made of the letters of descriptors. -/
theorem methodDescriptor_identifies_letters :
    (methodDescriptor .void [.named "L", .int] = methodDescriptor .void [.named "LI"] ↔
      Ty.void = .void ∧ [.named "L", .int] = [Ty.named "LI"]) ∧
    ∃ c : Compiled, Ast.parse .unit 0 "class V { void f(L I, int F) {} void g(LI V, int F) {} }" =
        .ok (c.ast, c.root) ∧
      ∃ n ∈ c.ast.descendants c.root, ∃ n' ∈ c.ast.descendants c.root, ∃ s s',
        c.signature? n = some s ∧ c.signature? n' = some s' ∧
        ∃ f f', c.ast.Declares n f ∧ c.ast.Declares n' f' ∧
          (s.descriptor? = s'.descriptor? ↔
            f.params.map (·.ty) = f'.params.map (·.ty) ∧ f.result = f'.result) := by
  have hL : (Ty.named "L").Nameable :=
    mem_identifier_iff.mpr ⟨'L', [], rfl, rfl, List.forall_mem_nil _⟩
  have hLI : (Ty.named "LI").Nameable :=
    mem_identifier_iff.mpr ⟨'L', ['I'], rfl, rfl, List.forall_mem_singleton.mpr rfl⟩
  have hsignatures : (match
      Ast.parse .unit 0 "class V { void f(L I, int F) {} void g(LI V, int F) {} }" with
    | .ok (ast, root) => Compiled.signatures ⟨ast, root, .empty, .empty⟩
    | .error _ => []) =
      [⟨"f", some .void, some [.named "L", .int], none⟩,
        ⟨"g", some .void, some [.named "LI", .int], none⟩] := by decide +kernel
  refine ⟨methodDescriptor_identifies.1 _ _ _ _ trivial trivial
    (List.forall_mem_cons.mpr ⟨hL, List.forall_mem_singleton.mpr trivial⟩)
    (List.forall_mem_singleton.mpr hLI), ?_⟩
  split at hsignatures
  · next ast root hparse =>
    have hexists : ∀ s ∈ Compiled.signatures ⟨ast, root, .empty, .empty⟩,
        ∃ n ∈ ast.descendants root,
          Compiled.signature? ⟨ast, root, .empty, .empty⟩ n = some s :=
      fun s hs => List.mem_filterMap.mp hs
    rw [hsignatures] at hexists
    obtain ⟨n, hn, hs⟩ := hexists _ List.mem_cons_self
    obtain ⟨n', hn', hs'⟩ := hexists _ (List.mem_cons_of_mem _ List.mem_cons_self)
    obtain ⟨f, f', hd, hd', -, -, hiff⟩ :=
      methodDescriptor_identifies.2 0 0 _ _ _ _ hparse hparse n hn n' hn' _ _ hs hs'
    exact ⟨⟨ast, root, .empty, .empty⟩, hparse, n, hn, n', hn', _, _, hs, hs', f, f', hd, hd', hiff⟩
  · cases hsignatures

end FlatScope
