import FlatScope.Grammar.Program
import FlatScope.Proofs.Statements

/-!
# Every grouped program is read

Parameters, members and classes are read as they are written, and a token list that spells a grouped
program is read to its end, whatever was built before (`builds_unit`).
-/

namespace FlatScope.Grammar

open FlatScope.Grammar.Parser

variable {i j k l : Input}

theorem builds_compound {body : List Stmt} (hg : ∀ s ∈ body, s.grouped)
    (hs : Spans i (blockWords body) j) : compound.Builds (.stmt (.block body)) i j := by
  obtain ⟨k, l, hi, hbody, hl⟩ := spans_inBraces.mp hs
  have items : (many statement).BuildsEach (body.map .stmt) k l := by
    refine Stmt.builds_body ?_ (refuses_statement hl.next?) hl.next? hbody
    exact fun s hs m n _ hspans hn => builds_statement (hg s hs) hspans fun _ => hn
  intro b hb
  obtain ⟨os, c, hr, hadds, hos⟩ := items b hb
  obtain ⟨o, d, hnode, hadds', ho⟩ := exists_node hadds
    ⟨rfl, _, hos, NodeKind.assemble_statements body⟩ i.pos j
  have hcompound : Stands (.compound o.id) [o] (.stmt (.block body)) :=
    ⟨rfl, [.stmts body], by simp [ho], rfl⟩
  obtain ⟨o', u, hnode', hadds'', ho'⟩ := exists_node hadds' hcompound i.pos j
  refine ⟨o', u, ?_, hadds'', ho'⟩
  rw [compound, reads_named]
  exact .position (.symbol hi (hr.bind (.symbol hl (hnode.bind hnode'))))

/-! ## Parameters -/

theorem builds_parameter {p : Param} (hs : Spans i p.words j) :
    parameter.Builds (.param p) i j := by
  obtain ⟨k, hty, hname⟩ : ∃ k, Spans i [p.ty.word] k ∧ Spans k [.name p.name] j :=
    spans_append.mp hs
  obtain ⟨l, hk, hl⟩ := spans_name.mp hname
  obtain rfl := spans_nil.mp hl
  intro b hb
  obtain ⟨o, c, hr, hadds, ho⟩ := builds_typeNode p.ty i.pos l b hb
  have hparam : Stands (.param o.id p.name) [o] (.param p) :=
    ⟨rfl, [.type p.ty], by simp [ho], rfl⟩
  obtain ⟨o', d, hnode, hadds', ho'⟩ := exists_node hadds hparam i.pos l
  refine ⟨o', d, ?_, hadds', ho'⟩
  have hread : identifier.Reads k b p.name l b := reads_identifier.mpr ⟨hk, rfl⟩
  rw [parameter_eq, reads_named]
  exact .position (Reads.bind (reads_typeName hty) (hread.bind (hr.bind hnode)))

theorem refuses_parameter (h : i.Lacks Token.startsType) : parameter.Refuses i := by
  rw [parameter_eq]
  exact refuses_named.mpr (Refuses.position ((refuses_typeName h).bind _))

theorem builds_parameters {ps : List Param}
    (hs : Spans i (inParens (separated (ps.map Param.words))) j) :
    parameters.Builds (.params ps) i j := by
  obtain ⟨k, l, hi, hps, hl⟩ := spans_inParens.mp hs
  have items : (separatedBy parameter (symbol .comma)).BuildsEach (ps.map .param) k l := by
    refine builds_separatedBy (Q := fun _ => True) ?_ (fun _ _ => trivial) trivial ?_ ?_ hps
    · exact fun p _ m n _ hspans _ => builds_parameter hspans
    · exact hl.next_ne (by simp)
    · exact refuses_parameter (hl.lacks rfl)
  refine Builds.named (Builds.position ?_) _
  exact (items.between hi hl).node (fun _ => rfl) (fun _ => NodeKind.assemble_params ps) i.pos

/-! ## Members and classes -/

theorem builds_field {ty : Ty} {name : String} (hs : Spans i (Member.field ty name).words j) :
    member.Builds (.member (.field ty name)) i j := by
  obtain ⟨k, hty, hs⟩ : ∃ k, Spans i [ty.word] k ∧ Spans k [.name name, .symbol .semicolon] j :=
    spans_append.mp hs
  obtain ⟨l, hk, hs⟩ := spans_name.mp hs
  obtain ⟨m, hl, hs⟩ := spans_symbol.mp hs
  obtain rfl := spans_nil.mp hs
  intro b hb
  obtain ⟨o, c, hr, hadds, ho⟩ := builds_typeNode ty i.pos m b hb
  have hfield : Stands (.field o.id name) [o] (.member (.field ty name)) :=
    ⟨rfl, [.type ty], by simp [ho], rfl⟩
  obtain ⟨o', d, hnode, hadds', ho'⟩ := exists_node hadds hfield i.pos m
  refine ⟨o', d, ?_, hadds', ho'⟩
  have hread : identifier.Reads k b name l b := reads_identifier.mpr ⟨hk, rfl⟩
  have hsemicolon :
      (do symbol .semicolon; return none : TreeParser (Option (NodeId × NodeId))).Reads
        l b none m b := .symbol hl (reads_pure.mpr ⟨rfl, rfl, rfl⟩)
  have hend : memberEnd.Reads l b none m b := hsemicolon.choice [] (by simp)
  rw [member_eq, reads_named]
  exact .position (Reads.bind (reads_typeName hty) (hread.bind (hend.bind (hr.bind hnode))))

/-- The type of a function is made last and is its first child all the same. -/
theorem builds_function {ty : Ty} {name : String} {params : List Param} {body : List Stmt}
    (hg : ∀ s ∈ body, s.grouped) (hs : Spans i (Member.function ty name params body).words j) :
    member.Builds (.member (.function ty name params body)) i j := by
  obtain ⟨m, hs, hbody⟩ := spans_append.mp hs
  obtain ⟨k, hty, hs⟩ : ∃ k, Spans i [ty.word] k ∧
      Spans k (.name name :: inParens (separated (params.map Param.words))) m :=
    spans_append.mp hs
  obtain ⟨l, hk, hparams⟩ := spans_name.mp hs
  have hopen : l.next? = some (.symbol .leftParen) := by
    obtain ⟨_, _, hl, -⟩ := spans_inParens.mp hparams
    exact hl.next?
  intro b hb
  obtain ⟨o, c, hr, hadds, ho⟩ := builds_parameters hparams b hb
  obtain ⟨o', d, hr', hadds', ho'⟩ := builds_compound hg hbody c hadds.full
  obtain ⟨o'', u, hr'', hadds'', ho''⟩ := builds_typeNode ty i.pos j d hadds'.full
  have hperm : ([o, o'] ++ [o'']).Perm ([o''] ++ [o, o']) := List.perm_append_comm
  have hall : b.ast.Adds u.ast [o'', o, o'] := (hadds.trans (hadds'.trans hadds'')).perm hperm
  have hfunction : Stands (.function o''.id name o.id o'.id) [o'', o, o']
      (.member (.function ty name params body)) :=
    ⟨rfl, [.type ty, .params params, .stmt (.block body)], by simp [ho, ho', ho''], rfl⟩
  obtain ⟨r, v, hnode, hadds''', hx⟩ := exists_node hall hfunction i.pos j
  refine ⟨r, v, ?_, hadds''', hx⟩
  have hread : identifier.Reads k b name l b := reads_identifier.mpr ⟨hk, rfl⟩
  have hdefinition : (do let params ← parameters; let body ← compound; return some (params, body) :
      TreeParser (Option (NodeId × NodeId))).Reads l b (some (o.id, o'.id)) j d :=
    hr.bind (Reads.bind hr' (reads_pure.mpr ⟨rfl, rfl, rfl⟩))
  have hend : memberEnd.Reads l b (some (o.id, o'.id)) j d := by
    refine hdefinition.choice [_] ?_
    intro q hq
    obtain rfl := List.mem_singleton.mp hq
    exact (refuses_symbol (by rw [hopen]; simp)).bind _
  rw [member_eq, reads_named]
  exact .position (Reads.bind (reads_typeName hty) (hread.bind (hend.bind (hr''.bind hnode))))

theorem builds_member {m : Member} (hg : m.grouped) (hs : Spans i m.words j) :
    member.Builds (.member m) i j := by
  cases m with
  | field ty name => exact builds_field hs
  | function ty name params body =>
    have hbody : ∀ s ∈ body, s.grouped := by
      unfold Member.grouped at hg
      exact List.all_eq_true.mp hg
    exact builds_function hbody hs

theorem refuses_member (h : i.Lacks Token.startsType) : member.Refuses i := by
  rw [member_eq]
  exact refuses_named.mpr (Refuses.position ((refuses_typeName h).bind _))

theorem member_words_ne_nil (m : Member) : m.words ≠ [] := by
  cases m <;> simp [Member.words]

theorem builds_members {ms : List Member} (hg : ∀ m ∈ ms, m.grouped)
    (hs : Spans i (ms.map Member.words).flatten j) (hj : j.next? = some (.symbol .rightCurly)) :
    members.Builds (.members ms) i j := by
  have items : (many member).BuildsEach (ms.map .member) i j := by
    refine builds_many (Q := fun _ => True) ?_ (fun _ _ _ _ _ => trivial)
      (fun m _ => member_words_ne_nil m) trivial ?_ hs
    · exact fun m hm k l _ hspans _ => builds_member (hg m hm) hspans
    · exact refuses_member (Input.lacks_of_next hj rfl)
  refine Builds.position ?_
  exact items.node (fun _ => rfl) (fun _ => NodeKind.assemble_definitions ms) i.pos

theorem builds_classDecl {d : ClassDecl} (hg : d.grouped) (hs : Spans i d.words j) :
    classDecl.Builds (.classDecl d) i j := by
  obtain ⟨k, hi, hs⟩ := spans_keyword.mp hs
  obtain ⟨l, hk, hs⟩ := spans_name.mp hs
  obtain ⟨m, n, hl, hms, hn⟩ := spans_inBraces.mp hs
  have hmembers : ∀ m ∈ d.members, m.grouped := by
    unfold ClassDecl.grouped at hg
    exact List.all_eq_true.mp hg
  intro b hb
  obtain ⟨o, c, hr, hadds, ho⟩ := builds_members hmembers hms hn.next? b hb
  have hclass : Stands (.classDecl d.name o.id) [o] (.classDecl d) :=
    ⟨rfl, [.members d.members], by simp [ho], rfl⟩
  obtain ⟨o', u, hnode, hadds', ho'⟩ := exists_node hadds hclass i.pos j
  refine ⟨o', u, ?_, hadds', ho'⟩
  have hread : identifier.Reads k b d.name l b := reads_identifier.mpr ⟨hk, rfl⟩
  have hbraces : (between .leftCurly members .rightCurly).Reads l b o.id j c :=
    reads_between.mpr ⟨m, n, hl, hr, hn⟩
  rw [classDecl, reads_named]
  exact .position (.keyword hi (hread.bind (hbraces.bind hnode)))

theorem refuses_classDecl (h : i.next? ≠ some (.keyword .class_)) : classDecl.Refuses i :=
  refuses_named.mpr (Refuses.position ((refuses_keyword h).bind _))

theorem builds_unit {p : Program} (hg : p.grouped) (hs : Spans i p.words j) (hj : j.rest = []) :
    unit.Builds (.program p) i j := by
  have hclasses : ∀ d ∈ p.classes, d.grouped := by
    unfold Program.grouped at hg
    exact List.all_eq_true.mp hg
  have items : (many classDecl).BuildsEach (p.classes.map .classDecl) i j := by
    refine builds_many (Q := fun _ => True) ?_ (fun _ _ _ _ _ => trivial) ?_ trivial ?_ hs
    · exact fun d hd k l _ hspans _ => builds_classDecl (hclasses d hd) hspans
    · exact fun d _ => by simp [ClassDecl.words]
    · refine refuses_classDecl ?_
      rw [Input.next?, hj]
      simp
  intro b hb
  obtain ⟨os, c, hr, hadds, hos⟩ := items b hb
  obtain ⟨o, d, hnode, hadds', ho⟩ := exists_node hadds
    ⟨rfl, _, hos, NodeKind.assemble_compUnit p.classes⟩ i.pos j
  have hend : endOfInput.Reads j c () j c := reads_endOfInput.mpr ⟨hj, rfl, rfl⟩
  exact ⟨o, d, .position (hr.bind (hend.bind hnode)), hadds', ho⟩

end FlatScope.Grammar
