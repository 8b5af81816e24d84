import DeskCalc.Proofs.Names
import DeskCalc.Proofs.Resynchronisation
import Mathlib.Data.List.Basic

/-!
# The lexemes to come

What an input is still going to hand out is a list of lexemes, whatever its source is: a source that
fails has none behind its failure. The statements of the input are the stretches of that list
between the lexemes that end statements.

* `LineSource.lexemes`, `Evaluation.script` — the lexemes to come, each with its line. Those of a
  text are in front of those of the source behind it (`Holds.script_eq`).
* `stretches` — the stretches of lexemes that statements are made of.
* `Evaluation.Passes` — reading some lexemes leads from one evaluation to another.
* `Ready.advance_cases`, `Ready.passes_toStatement`, `Faces.passes_skip` — which lexemes taking a
  token, looking for a statement and skipping it read.
* `Ready.exists_scans`, `Ready.exists_done` — the lexemes of the next statement, and those of some
  number of statements. Where there are no more, there is no statement (`Ready.finish_after_iff`).
-/

namespace DeskCalc

variable {α : Type}

/-! ## Lexemes that end statements -/

/-- Does the lexeme end a statement? What is no token does. -/
def Lexeme.ends : Lexeme → Bool
  | .newline | .stray _ => true
  | .mark kind => kind.endsStatement
  | .number n => n.value?.isNone
  | .name _ => false

/-- The stretches of lexemes that end no statement. -/
def stretches (ls : List (Lexeme × Nat)) : List (List (Lexeme × Nat)) :=
  runsBetween (fun l => l.1.ends) ls

/-- A lexeme that ends statements parts the stretches in front of it from those behind. -/
theorem stretches_append_cons {l : Lexeme × Nat} (hl : l.1.ends = true)
    (ls ls' : List (Lexeme × Nat)) : stretches (ls ++ l :: ls') = stretches ls ++ stretches ls' :=
  runsBetween_append_cons (p := fun l : Lexeme × Nat => l.1.ends) hl ls ls'

/-- What ends no statement is no problem. -/
theorem Lexeme.problem?_eq_none {l : Lexeme} (h : l.ends = false) : l.problem? = none := by
  cases l with
  | stray c => cases h
  | number n =>
    have h : n.value?.isNone = false := h
    simp [problem?, h]
  | _ => rfl

/-- What ends a statement has no name. -/
theorem Lexeme.name?_eq_none {l : Lexeme} (h : l.ends = true) : l.name? = none := by
  cases l with
  | name chars => cases h
  | _ => rfl

/-- Lexemes that end statements give the table no names. -/
theorem SymbolTable.withNames_of_ends (t : SymbolTable α) {ls : List (Lexeme × Nat)}
    (h : ∀ l ∈ ls, l.1.ends = true) : t.withNames ls = t := by
  have hnames : ls.filterMap (fun l => l.1.name?) = [] :=
    List.filterMap_eq_nil_iff.2 fun l hl => Lexeme.name?_eq_none (h l hl)
  rw [withNames, hnames, List.foldl_nil]

/-- More faces make no difference to the token of a name that has a place. -/
theorem Lexeme.token_of_prefix [Arithmetic α] {t t' : SymbolTable α} {l : Lexeme}
    (h : ∀ name ∈ l.name?, (t.indexOf? name).isSome = true) (hfaces : t.faces <+: t'.faces)
    (line : Nat) : l.token t line = l.token t' line := by
  cases l with
  | newline => rfl
  | mark kind => rfl
  | stray c => rfl
  | number n => rfl
  -- the name keeps its place, and the face there is the same
  | name chars =>
    obtain ⟨index, hindex⟩ := Option.isSome_iff_exists.1 (h _ rfl)
    have hindex' := SymbolTable.indexOf?_of_prefix hindex hfaces
    obtain ⟨more, hmore⟩ := hfaces
    have hlt : index < t.faces.length := by
      rw [SymbolTable.indexOf?_eq_findIdx?] at hindex
      exact (List.findIdx?_eq_some_iff_getElem.1 hindex).1
    have harity : (t.lookup (String.ofList chars)).bind Binding.arity? =
        (t'.lookup (String.ofList chars)).bind Binding.arity? := by
      rw [SymbolTable.lookup_eq, SymbolTable.lookup_eq, hindex, hindex', Option.bind_some,
        Option.bind_some, SymbolTable.arity?_get, SymbolTable.arity?_get, ← hmore,
        List.getElem?_append_left hlt]
    simp only [Lexeme.token, harity, hindex, hindex', Option.getD_some]

theorem stretches_of_ends {ls : List (Lexeme × Nat)} (h : ∀ l ∈ ls, l.1.ends = true) :
    stretches ls = [] :=
  runsBetween_of_forall h

@[simp] theorem stretches_nil : stretches [] = [] := stretches_of_ends (by simp)

/-- A gap in front of the first stretch does not count. -/
theorem stretches_gap_append {gap : List (Lexeme × Nat)} (h : ∀ l ∈ gap, l.1.ends = true)
    (ls : List (Lexeme × Nat)) : stretches (gap ++ ls) = stretches ls := by
  induction gap with
  | nil => rfl
  | cons l gap ih =>
    have happend := stretches_append_cons (h l List.mem_cons_self) [] (gap ++ ls)
    rw [List.nil_append, stretches_nil, List.nil_append] at happend
    rw [List.cons_append, happend, ih fun l' hl' => h l' (List.mem_cons_of_mem l hl')]

/-- Nor does one behind the last. -/
theorem stretches_append_gap {gap : List (Lexeme × Nat)} (h : ∀ l ∈ gap, l.1.ends = true)
    (ls : List (Lexeme × Nat)) : stretches (ls ++ gap) = stretches ls := by
  cases gap with
  | nil => rw [List.append_nil]
  | cons l gap =>
    rw [stretches_append_cons (h l List.mem_cons_self),
      stretches_of_ends fun l' hl' => h l' (List.mem_cons_of_mem l hl'), List.append_nil]

namespace Session

variable [Arithmetic α]

/-- The table that a lexeme was read into makes the same token of it. -/
theorem token_eq (l : Lexeme) (s : Session α) :
    (s.token l).1 = l.token (s.token l).2.table s.log.line := by
  rw [fst_token]
  cases l with
  | newline => rfl
  | mark kind => rfl
  | stray c => rfl
  | number n => rfl
  -- interning the name once more would change nothing
  | name chars =>
    have hindex := s.table.indexOf?_intern (String.ofList chars)
    have harity : ((s.table.intern (String.ofList chars)).2.lookup (String.ofList chars)).bind
        Binding.arity? = (s.table.lookup (String.ofList chars)).bind Binding.arity? := by
      rw [SymbolTable.lookup_eq, hindex]
      exact s.table.lookup_intern (String.ofList chars)
    show Lexeme.token s.table _ _ = Lexeme.token (s.table.intern (String.ofList chars)).2 _ _
    simp only [Lexeme.token, harity, hindex, ← SymbolTable.fst_intern, Option.getD_some]

/-- Behind reading a lexeme, its name has a place. -/
theorem placed_token (l : Lexeme) (s : Session α) :
    ∀ name ∈ l.name?, ((s.token l).2.table.indexOf? name).isSome = true := by
  -- only the lexeme of a name has one
  cases l with
  | name chars =>
    intro name hname
    cases hname
    exact Option.isSome_iff_exists.2 ⟨_, s.table.indexOf?_intern _⟩
  | newline => simp [Lexeme.name?]
  | mark kind => simp [Lexeme.name?]
  | stray c => simp [Lexeme.name?]
  | number n => simp [Lexeme.name?]

/-- The token of a lexeme ends a statement if the lexeme does. -/
theorem endsStatement_token (l : Lexeme) (s : Session α) :
    (s.token l).1.kind.endsStatement = l.ends := by
  cases l with
  | newline => rfl
  | mark kind => rfl
  | stray c => rfl
  | number n => cases hv : n.value? <;> simp [token, Lexeme.ends, hv, Token.bare] <;> rfl
  | name chars => exact TokenKind.endsStatement_eq_false_of_isName (TokenKind.isName_ofArity? _)

end Session

/-! ## The lexemes of a source -/

namespace LineSource

variable {line : Nat} {l : Lexeme} {rest rest' cs : List Char} {s s' behind : LineSource}

/-- The lexemes in the rest of a line and in the lines behind it, the first of them on the given
line. At its end and where it fails, the source has no more. -/
def lexemes (line : Nat) (rest : List Char) (s : LineSource) : List (Lexeme × Nat) :=
  match _h : next rest s with
  | (.lexeme l rest', s') => (l, line) :: lexemes (if l = .newline then line + 1 else line) rest' s'
  | (.finished, _) => []
  | (.failed _, _) => []
termination_by rest.length + s.unread
decreasing_by exact unread_lt_of_next _h

/-- A lexeme is the first one, and a line break among them makes the next one stand a line further
down. -/
theorem lexemes_of_lexeme (h : next rest s = (.lexeme l rest', s')) :
    s.lexemes line rest =
      (l, line) :: s'.lexemes (if l = .newline then line + 1 else line) rest' := by
  rw [lexemes]
  split
  · next h' => rw [h] at h'; cases h'; rfl
  · next h' => rw [h] at h'; cases h'
  · next h' => rw [h] at h'; cases h'

/-- Where there is no lexeme to read there are none to come. -/
theorem lexemes_of_ne (h : ∀ l rest', (next rest s).1 ≠ .lexeme l rest') :
    s.lexemes line rest = [] := by
  rw [lexemes]
  split
  · next h' => exact absurd (by rw [h']) (h _ _)
  · rfl
  · rfl

/-- What is to come depends on what is read next. -/
theorem lexemes_congr (h : next rest s = next rest' s') :
    s.lexemes line rest = s'.lexemes line rest' := by
  rcases hn : next rest' s' with ⟨l | _ | _, s''⟩
  · rw [lexemes_of_lexeme (h.trans hn), lexemes_of_lexeme hn]
  · rw [lexemes_of_ne (by simp [h, hn]), lexemes_of_ne (by simp [hn])]
  · rw [lexemes_of_ne (by simp [h, hn]), lexemes_of_ne (by simp [hn])]

/-- The lexemes of a text stand in front of those of the source behind it. -/
theorem Holds.lexemes_eq (h : behind.Holds rest s cs) :
    s.lexemes line rest =
      DeskCalc.lexemes line cs ++ behind.lexemes (line + cs.count '\n') [] := by
  induction hn : cs.length using Nat.strongRecOn generalizing line rest s cs with
  | _ n ih =>
    rcases h.next with ⟨l, cs', rest', s', hl, hnext, h'⟩ | ⟨hnone, hnext⟩
    -- the text hands out its first lexeme, and the induction is on what is left of it
    · have hlt := Lexeme.length_lt_of_next? hl
      have hline : (if l = .newline then line + 1 else line) + cs'.count '\n' =
          line + cs.count '\n' := by
        rw [Lexeme.count_of_next? hl]
        split <;> omega
      rw [lexemes_of_lexeme hnext, lexemes_of_some hl, ih _ (by omega) h' rfl, hline,
        List.cons_append]
    · rw [lexemes_congr hnext, lexemes_of_none hnone, Lexeme.count_of_next?_none hnone]
      rfl

end LineSource

/-! ## The lexemes to come -/

namespace Evaluation

/-- The lexemes that the input is still going to hand out, each with its line. -/
def script (e : Evaluation α) : List (Lexeme × Nat) :=
  if e.stream.exhausted then []
  else e.stream.source.lexemes e.reading.log.line e.stream.rest

/-- What is to come depends on the stream and the line. -/
theorem script_congr {e e' : Evaluation α} (hstream : e.stream = e'.stream)
    (hline : e.session.log.line = e'.session.log.line) : e.script = e'.script := by
  have hreading : e.reading.log.line = e'.reading.log.line := by
    rw [reading_of_pending rfl, reading_of_pending rfl, hstream, hline]
  rw [script, script, hstream, hreading]

/-- So do those of an input in front of whatever it goes on with. -/
theorem Holds.script_eq {behind : LineSource} {e : Evaluation α} {cs : List Char}
    (h : e.Holds behind cs) (hx : e.stream.exhausted = false) :
    e.script = lexemes e.reading.log.line cs ++
      behind.lexemes (e.reading.log.line + cs.count '\n') [] := by
  rw [script, hx, if_neg (by simp), h.source.lexemes_eq]

/-- A text by itself has its own lexemes to come, and no others. -/
theorem script_start_ofText (text : String) (session : Session α) :
    (start (.ofText text) session).script = lexemes session.log.line text.toList := by
  rw [(holds_start text session).script_eq rfl, LineSource.lexemes_of_ne, List.append_nil]
  · rfl
  · rw [LineSource.drained_nothing.next rfl]
    simp

variable [Arithmetic α] {e e' e'' : Evaluation α} {l : Lexeme × Nat} {ls ls' : List (Lexeme × Nat)}

/-- Reading the lexemes leads from one evaluation to the other. -/
structure Passes (e : Evaluation α) (ls : List (Lexeme × Nat)) (e' : Evaluation α) : Prop where
  ready : e'.Ready
  advance : e' = Evaluation.advance^[ls.length] e
  script : e.script = ls ++ e'.script
  recites : e.session.Recites ls e'.session

theorem Ready.passes_nil (h : e.Ready) : e.Passes [] e := ⟨h, rfl, rfl, .nil rfl rfl rfl⟩

theorem Passes.append (h : e.Passes ls e') (h' : e'.Passes ls' e'') : e.Passes (ls ++ ls') e'' where
  ready := h'.ready
  advance := by
    rw [h'.advance, h.advance, ← Function.iterate_add_apply, List.length_append, Nat.add_comm]
  script := by rw [h.script, h'.script, List.append_assoc]
  recites := h.recites.append h'.recites

/-! ## Taking a token -/

/-- The current token is that of the lexeme, and its name has a place. -/
structure Faces (e : Evaluation α) (l : Lexeme × Nat) : Prop where
  current : e.current = l.1.token e.session.table l.2
  placed : ∀ name ∈ l.1.name?, (e.session.table.indexOf? name).isSome = true

/-- What taking the token of a lexeme does. -/
structure TakesLexeme (e : Evaluation α) (l : Lexeme × Nat) : Prop where
  passes : e.Passes [l] e.advance
  faces : e.advance.Faces l
  ends : e.advance.current.kind.endsStatement = l.1.ends
  ne_finish : e.advance.current.kind ≠ .finish
  line : e.advance.session.log.line = l.2

/-- What taking a token does where no lexeme is left. -/
structure TakesFinish (e : Evaluation α) : Prop where
  ready : e.advance.Ready
  script : e.script = []
  script_advance : e.advance.script = []
  kind : e.advance.current.kind = .finish
  table : e.advance.session.table = e.session.table

/-- Where the source has a lexeme, taking a token takes that. -/
theorem Ready.takesLexeme (h : e.Ready) (hx : e.stream.exhausted = false) {l : Lexeme}
    {rest : List Char} {source : LineSource}
    (hnext : LineSource.next e.stream.rest e.stream.source = (.lexeme l rest, source)) :
    e.TakesLexeme (l, e.reading.log.line) := by
  have hadvance := h.advance_eq (scan_of_lexeme hx hnext)
  have hsession : e.advance.session = (e.reading.token l).2 := by rw [hadvance]
  have hcurrent : e.advance.current = (e.reading.token l).1 := by rw [hadvance]; rfl
  have hline : e.advance.session.log.line = e.reading.log.line := by rw [hsession, line_token]
  refine ⟨⟨h.settled_advance.ready, rfl, ?_, ?_⟩, ?_, ?_, ?_, hline⟩
  · -- the lexemes behind the first one start on the line that it leads to
    have hreading : e.advance.reading.log.line =
        if l = .newline then e.reading.log.line + 1 else e.reading.log.line := by
      rw [reading_of_pending (b := decide (l = .newline)) (by rw [hadvance]), hline]
      by_cases hn : l = .newline <;> simp [hn]
    rw [script, hx, if_neg (by simp), LineSource.lexemes_of_lexeme hnext, script, hreading,
      hadvance]
    simp only [hx]
    rfl
  · rw [hsession]
    exact e.recites_reading.append (Session.recites_token l e.reading)
  · exact ⟨by rw [hcurrent, hsession]; exact Session.token_eq l e.reading,
      hsession ▸ Session.placed_token l e.reading⟩
  · rw [hcurrent, Session.endsStatement_token]
  · rw [hcurrent]
    exact kind_token_ne_finish hnext _

/-- Where reading gives the end of the input, no lexeme was left. -/
theorem Ready.takesFinish (h : e.Ready) (hscript : e.script = []) {line : Nat}
    {t : TokenStream α} {s : Session α}
    (hscan : e.stream.scan e.session = (.bare .finish line, t, s)) (hx : t.exhausted = true)
    (htable : s.table = e.session.table) : e.TakesFinish := by
  -- nothing was looked at before, so the token is the one that was scanned
  have hadvance := h.advance_eq hscan
  refine ⟨h.settled_advance.ready, hscript, ?_, ?_, ?_⟩
  · rw [script, hadvance, if_pos hx]
  · rw [hadvance]
    rfl
  · rw [hadvance]
    exact htable

/-- The next token is that of the first lexeme to come, or the end of the input. -/
theorem Ready.advance_cases (h : e.Ready) : (∃ l, e.TakesLexeme l) ∨ e.TakesFinish := by
  have htable := e.eq_of_reading.1
  cases hx : e.stream.exhausted with
  | true =>
    exact Or.inr (h.takesFinish (by rw [script, hx, if_pos rfl]) (scan_at_end hx) hx htable)
  -- the source hands out a lexeme, has come to its end, or fails
  | false =>
    have hscript (hne : ∀ l rest, (LineSource.next e.stream.rest e.stream.source).1 ≠
        .lexeme l rest) : e.script = [] := by
      rw [script, hx, if_neg (by simp), LineSource.lexemes_of_ne hne]
    rcases hnext : LineSource.next e.stream.rest e.stream.source with
      ⟨⟨l, rest⟩ | _ | message, source⟩
    · exact Or.inl ⟨_, h.takesLexeme hx hnext⟩
    · have hscan := scan_of_finished hx hnext
      exact Or.inr (h.takesFinish (hscript (by simp [hnext])) hscan rfl htable)
    · have hscan := scan_of_failed hx hnext
      exact Or.inr (h.takesFinish (hscript (by simp [hnext])) hscan rfl htable)

/-! ## Looking for a statement -/

/-- The next token ends the statement, by its lexeme or because there is none. -/
inductive Closes (e : Evaluation α) : Option (Lexeme × Nat) → Prop
  | lexeme {l : Lexeme × Nat} : e.TakesLexeme l → l.1.ends = true → Closes e (some l)
  | finish : e.TakesFinish → Closes e none

/-- Looking for a statement passes over lexemes that end statements, and takes the one behind
them. -/
theorem Ready.passes_toStatement (h : e.Ready) :
    ∃ gap e₀, (∀ l ∈ gap, l.1.ends = true) ∧ e.Passes gap e₀ ∧ e.toStatement = e₀.advance ∧
      (e₀.TakesFinish ∨ ∃ l, e₀.TakesLexeme l ∧ l.1.ends = false) := by
  fun_induction toStatement e with
  | case1 e hk ih =>
    obtain ⟨gap, e₀, hgap, hpasses, hstart, hnext⟩ := ih h.settled_advance.ready
    -- the end of the input is no end of a statement, so there was a lexeme
    rcases h.advance_cases with ⟨l, hl⟩ | hfinish
    · have hends : l.1.ends = true := by rw [← hl.ends, hk]; rfl
      exact ⟨l :: gap, e₀, List.forall_mem_cons.2 ⟨hends, hgap⟩, hl.passes.append hpasses, hstart,
        hnext⟩
    · rw [hfinish.kind] at hk
      cases hk
  | case2 e hk =>
    refine ⟨[], e, by simp, h.passes_nil, rfl, ?_⟩
    rcases h.advance_cases with ⟨l, hl⟩ | hfinish
    -- the search has stopped here, so the token does not end a statement
    · refine Or.inr ⟨l, hl, ?_⟩
      rw [← hl.ends]
      have hne := hl.ne_finish
      generalize e.advance.current.kind = kind at hk hne
      cases kind <;> simp_all [TokenKind.endsStatement]
    · exact Or.inl hfinish

/-- Skipping a statement passes over the lexemes that end none and takes the one behind them. The
tokens of the run are those of the lexemes. -/
theorem Faces.passes_skip (h : e.Ready) {l : Lexeme × Nat} (hl : e.Faces l)
    (hk : e.current.kind.endsStatement = false) :
    ∃ run stop e₀, (∀ l ∈ run, l.1.ends = false) ∧ e.Passes run e₀ ∧ e₀.Closes stop ∧
      e.skip = e₀.advance ∧
      e.upcoming = (l :: run).map fun l => (l.1.token e.skip.session.table l.2).content := by
  induction hn : e.ahead using Nat.strongRecOn generalizing e l with
  | _ n ih =>
    have hcontent : e.current.content = (l.1.token e.skip.session.table l.2).content := by
      rw [hl.current, Lexeme.token_of_prefix hl.placed e.faces_skip]
    rw [upcoming_of_not_endsStatement hk, hcontent]
    -- the token behind the current one ends the run, belongs to it, or is not there
    rcases h.advance_cases with ⟨next, hnext⟩ | hfinish
    · cases hends : next.1.ends with
      | true =>
        refine ⟨[], some next, e, by simp, h.passes_nil, .lexeme hnext hends, ?_, ?_⟩
        · rw [← skip_advance hk, skip_of_endsStatement (hnext.ends.trans hends)]
        · rw [upcoming_of_endsStatement (hnext.ends.trans hends)]
          rfl
      | false =>
        -- the next lexeme belongs to the run, and so does what follows it
        obtain ⟨run, stop, e₀, hrun, hpasses, hcloses, hskip, hup⟩ :=
          ih _ (hn ▸ ahead_advance_lt hk) hnext.passes.ready hnext.faces
            (hnext.ends.trans hends) rfl
        rw [skip_advance hk] at hskip hup
        exact ⟨next :: run, stop, e₀, List.forall_mem_cons.2 ⟨hends, hrun⟩,
          hnext.passes.append hpasses, hcloses, hskip, by rw [hup]; rfl⟩
    · have hends : e.advance.current.kind.endsStatement = true := by rw [hfinish.kind]; rfl
      refine ⟨[], none, e, by simp, h.passes_nil, .finish hfinish, ?_, ?_⟩
      · rw [← skip_advance hk, skip_of_endsStatement hends]
      · rw [upcoming_of_endsStatement hends]
        rfl

/-- The table behind the token that ends the statement is that in front of it. -/
theorem Closes.table {stop : Option (Lexeme × Nat)} (h : e.Closes stop) :
    e.advance.session.table = e.session.table := by
  cases h with
  | @lexeme l hl hends =>
    rw [hl.passes.recites.table]
    exact SymbolTable.withNames_of_ends _ (by simpa using hends)
  | finish hfinish => exact hfinish.table

/-- The lexeme that ends the statement is the next one to come, if there is one. -/
theorem Closes.script {stop : Option (Lexeme × Nat)} (h : e.Closes stop) :
    e.script = stop.toList ++ e.advance.script := by
  cases h with
  | lexeme hl hends => exact hl.passes.script
  | finish hfinish => rw [hfinish.script, hfinish.script_advance]; rfl

/-! ## Statements -/

/-- Binding the last result reads nothing, so it stays on its line. -/
theorem line_rememberStatement (statement : Statement α) (e : Evaluation α) :
    (e.rememberStatement statement).session.log.line = e.session.log.line := by
  cases statement with
  | assignment value => rfl
  | expression value =>
    exact congrArg (fun v => v.session.line)
      (view_assign (e.session.intern SymbolTable.last).1 value
        { e with session := (e.session.intern SymbolTable.last).2 })

/-- Evaluating does not change the line. -/
theorem Ready.line_statement (h : e.Ready) :
    e.statement.2.session.log.line = e.toStatement.skip.session.log.line := by
  by_cases hk : e.toStatement.current.kind = .finish
  · rw [statement_of_finish hk, skip_of_endsStatement (by rw [hk]; rfl)]
  · have hview := (view_conclude e.toStatement.session.errorCount e.toStatement.body.2).trans
      h.settled_toStatement.reaches_body.skip_view
    rw [statement_of_ne_finish hk]
    exact (line_rememberStatement _ _).trans (congrArg (fun v => v.session.line) hview)

/-- Evaluating does not change what is to come: it is what skipping leaves. -/
theorem Ready.script_statement (h : e.Ready) :
    e.statement.2.script = e.toStatement.skip.script :=
  script_congr h.read_statement.1 h.line_statement

/-- The lexemes of the next statement: it passes over a gap, its tokens are those of the run, and
the lexeme behind the run ends it, unless the input ends there. -/
structure Scans (e : Evaluation α) (gap run : List (Lexeme × Nat)) (stop : Option (Lexeme × Nat)) :
    Prop where
  gap_ends : ∀ l ∈ gap, l.1.ends = true
  ne_nil : run ≠ []
  run_goes_on : ∀ l ∈ run, l.1.ends = false
  stop_ends : ∀ l ∈ stop, l.1.ends = true
  script : e.script = gap ++ run ++ (stop.toList ++ e.statement.2.script)
  finish : stop = none → e.statement.2.script = []
  first : e.Passes (gap ++ run.take 1) e.toStatement
  line : ∀ l ∈ run.head?, l.2 = e.toStatement.session.log.line
  faces : ∀ l ∈ run.head?, e.toStatement.Faces l
  upcoming : e.toStatement.upcoming =
    run.map fun l => (l.1.token e.toStatement.skip.session.table l.2).content
  table : e.toStatement.skip.session.table = e.session.table.withNames run

/-- Where there is a statement, it has its lexemes. -/
theorem Ready.exists_scans (h : e.Ready) (hk : e.toStatement.current.kind ≠ .finish) :
    ∃ gap run stop, e.Scans gap run stop := by
  obtain ⟨gap, e₀, hgap, hpasses, hstart, hfinish | ⟨l, hl, hends⟩⟩ := h.passes_toStatement
  · rw [hstart] at hk
    exact absurd hfinish.kind hk
  · have hfirst := hpasses.append hl.passes
    rw [← hstart] at hfirst
    have hfaces := hl.faces
    have hkind := hl.ends.trans hends
    have hline := hl.line
    rw [← hstart] at hfaces hkind hline
    -- behind the first token, the run goes on up to what ends it
    obtain ⟨run, stop, e₁, hrun, hpasses', hcloses, hskip, hup⟩ :=
      hfaces.passes_skip hfirst.ready hkind
    have hall := hfirst.append hpasses'
    refine ⟨gap, l :: run, stop, hgap, by simp, List.forall_mem_cons.2 ⟨hends, hrun⟩, ?_, ?_, ?_,
      hfirst, ?_, by simpa using hfaces, hup, ?_⟩
    · cases hcloses with
      | lexeme _ hends => simpa using hends
      | finish => simp
    · rw [h.script_statement, hskip, ← hcloses.script, hall.script]
      simp
    · rintro rfl
      rw [h.script_statement, hskip]
      cases hcloses with
      | finish hfinish => exact hfinish.script_advance
    · simpa using hline.symm
    · rw [hskip, hcloses.table, hall.recites.table, List.append_assoc, SymbolTable.withNames_append,
        SymbolTable.withNames_of_ends _ hgap]
      rfl

/-- Where there is none, only lexemes that end statements were left. -/
theorem Ready.script_of_finish (h : e.Ready) (hk : e.toStatement.current.kind = .finish) :
    (∀ l ∈ e.script, l.1.ends = true) ∧ e.statement.2.script = [] := by
  obtain ⟨gap, e₀, hgap, hpasses, hstart, hfinish | ⟨l, hl, hends⟩⟩ := h.passes_toStatement
  · rw [hpasses.script, hfinish.script, List.append_nil, statement_of_finish hk, hstart]
    exact ⟨hgap, hfinish.script_advance⟩
  · rw [hstart] at hk
    exact absurd hk hl.ne_finish

variable {gap run : List (Lexeme × Nat)} {stop : Option (Lexeme × Nat)}

/-- The run of a statement comes before the stretches behind the statement. -/
theorem Scans.stretches_append (h : e.Scans gap run stop) {ls : List (Lexeme × Nat)}
    (hls : stop = none → ls = []) :
    stretches (gap ++ run ++ (stop.toList ++ ls)) = run :: stretches ls := by
  -- the gap ends nothing, so the run is the first stretch; the lexeme that stops it starts the
  -- others
  have hfirst : stretches (gap ++ run) = [run] :=
    runsBetween_append_run h.gap_ends h.ne_nil h.run_goes_on
  cases stop with
  | none =>
    rw [hls rfl, Option.toList_none, List.nil_append, List.append_nil, hfirst, stretches_nil]
  | some l =>
    rw [Option.toList_some, List.singleton_append, stretches_append_cons (h.stop_ends l rfl),
      hfirst]
    rfl

/-- The next statement has the first stretch, and the others are left for those behind it. -/
theorem Scans.stretches_eq (h : e.Scans gap run stop) :
    stretches e.script = run :: stretches e.statement.2.script := by
  rw [h.script, h.stretches_append h.finish]

/-- The next statement is missing just when no stretch is left. -/
theorem Ready.stretches_eq_nil_iff (h : e.Ready) :
    stretches e.script = [] ↔ e.toStatement.current.kind = .finish := by
  constructor
  · intro hnil
    by_contra hk
    -- a statement has a run of its own, which would be the first stretch
    obtain ⟨gap, run, stop, hscans⟩ := h.exists_scans hk
    rw [hscans.stretches_eq] at hnil
    cases hnil
  · exact fun hk => stretches_of_ends (h.script_of_finish hk).1

/-! ## All statements -/

theorem Ready.after (h : e.Ready) (i : Nat) : (e.after i).Ready := by
  induction i generalizing e with
  | zero => exact h
  | succ i ih => exact ih h.statement

theorem after_succ_eq (i : Nat) (e : Evaluation α) :
    e.after (i + 1) = (e.after i).statement.2 :=
  Function.iterate_succ_apply' _ i e

/-- The lexemes of the first statements: they end with the token that ends the last of these
statements, or the input does. -/
structure Done (e : Evaluation α) (i : Nat) (done : List (Lexeme × Nat)) : Prop where
  script : e.script = done ++ (e.after i).script
  stretches_done : stretches done = (stretches e.script).take i
  stretches_left : stretches (e.after i).script = (stretches e.script).drop i
  ends : (e.after i).script = [] ∨ ∀ l ∈ done.getLast?, l.1.ends = true

/-- Some number of statements read the stretches with their numbers. -/
theorem Ready.exists_done (h : e.Ready) (i : Nat) : ∃ done, e.Done i done := by
  induction i generalizing e with
  | zero => exact ⟨[], rfl, stretches_nil, rfl, Or.inr (by simp)⟩
  | succ i ih =>
    by_cases hk : e.toStatement.current.kind = .finish
    · -- nothing is left, and nothing is going to come
      obtain ⟨hends, hnil⟩ := h.script_of_finish hk
      obtain ⟨done, hdone⟩ := ih h.statement
      have hscript := hdone.script
      rw [hnil] at hscript
      obtain ⟨-, hnil'⟩ := List.append_eq_nil_iff.1 hscript.symm
      have hstretches := stretches_of_ends hends
      refine ⟨e.script, ?_, ?_, ?_, Or.inl hnil'⟩
      · rw [after_succ, hnil', List.append_nil]
      · rw [hstretches, List.take_nil]
      · rw [after_succ, hnil', hstretches, List.drop_nil, stretches_nil]
    -- one more stretch is read, and those of the other statements come behind it
    · obtain ⟨gap, run, stop, hscans⟩ := h.exists_scans hk
      obtain ⟨done, hdone⟩ := ih h.statement
      have hstop : stop = none → done = [] ∧ (e.after (i + 1)).script = [] := fun hstop =>
        List.append_eq_nil_iff.1 (hdone.script.symm.trans (hscans.finish hstop))
      refine ⟨gap ++ run ++ (stop.toList ++ done), ?_, ?_, ?_, ?_⟩
      · rw [hscans.script, hdone.script, after_succ]
        simp
      · rw [hscans.stretches_append fun hnone => (hstop hnone).1, hdone.stretches_done,
          hscans.stretches_eq, List.take_succ_cons]
      · rw [after_succ, hdone.stretches_left, hscans.stretches_eq, List.drop_succ_cons]
      · cases stop with
        | none => exact Or.inl (hstop rfl).2
        | some l =>
          refine hdone.ends.imp_right fun hends x hx => ?_
          rw [Option.toList_some, List.singleton_append, List.getLast?_append_cons,
            List.getLast?_cons] at hx
          cases hlast : done.getLast? with
          | none =>
            rw [hlast] at hx
            cases hx
            exact hscans.stop_ends l rfl
          -- the last lexeme is that of the statements behind this one
          | some last =>
            rw [hlast] at hx
            cases hx
            exact hends last hlast

/-- There is another statement behind the first ones as long as there is another stretch. -/
theorem Ready.finish_after_iff (h : e.Ready) (i : Nat) :
    (e.after i).toStatement.current.kind = .finish ↔ (stretches e.script).length ≤ i := by
  obtain ⟨done, hdone⟩ := h.exists_done i
  rw [← (h.after i).stretches_eq_nil_iff, hdone.stretches_left, List.drop_eq_nil_iff]

/-- The statements that are left are those that come one after another. -/
theorem Ready.statement_after (h : e.Ready) (i : Nat) :
    (e.after i).statement.1 = e.statements.1[i]? := by
  induction i generalizing e with
  | zero =>
    cases hs : e.statement.1 with
    | none =>
      rw [statements_of_none hs]
      exact hs
    | some statement =>
      rw [statements_of_some hs]
      exact hs
  | succ i ih =>
    rw [after_succ, ih h.statement]
    cases hs : e.statement.1 with
    | none =>
      -- behind a missing statement there is no other one
      have hk : e.toStatement.current.kind = .finish := by
        by_contra hk
        rw [statement_of_ne_finish hk] at hs
        cases hs
      have hnil : stretches e.statement.2.script = [] := by
        rw [(h.script_of_finish hk).2, stretches_nil]
      have hk' := h.statement.stretches_eq_nil_iff.1 hnil
      rw [statements_of_none hs, statements_of_finish hk']
      rfl
    | some statement =>
      rw [statements_of_some hs]
      rfl

/-- Evaluating the statements that are left ends behind the call that finds none. -/
theorem statements_eq_after (e : Evaluation α) :
    e.statements.2 = e.after (e.statements.1.length + 1) := by
  -- the induction is on what is to come, as in the loop
  induction hn : e.pending using Nat.strongRecOn generalizing e with
  | _ n ih =>
    cases hs : e.statement.1 with
    | none =>
      rw [statements_of_none hs]
      rfl
    | some statement =>
      have hlt := pending_statement_of_some hs
      rw [statements_of_some hs]
      exact ih _ (by omega) _ rfl

end Evaluation

end DeskCalc
