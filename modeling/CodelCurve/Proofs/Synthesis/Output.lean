import CodelCurve.Proofs.Formula.Evaluation
import CodelCurve.Proofs.Layout.Fitting
import CodelCurve.Proofs.Layout.Meaning
import CodelCurve.Proofs.Layout.Segments
import CodelCurve.Synthesis

/-! What a synthesized program prints. The units of a text push the code of each printable character and print it, so
in a row they print these characters and leave the stack as it was; laid out on a curve they do the same. Synthesis
fails only where no curve of the range has room. -/

namespace CodelCurve

open Layout (Orders attempt fit)

/-! ### Printing -/

/-- The formulas of a table are proper and evaluate to their numbers. -/
def Table.Sound (t : Table) : Prop := ∀ e ∈ t.entries, e.2.value? = some e.1 ∧ e.2.Proper

theorem Table.get_eq_ok (t : Table) {n : Int} (hn : 1 ≤ n) : ∃ f, t.get n = .ok f := by
  unfold Table.get
  cases t.find? n with
  | none =>
      refine ⟨.leaf n, ?_⟩
      show Formula.ofNumber n = _
      rw [Formula.ofNumber, if_neg (by omega)]
  | some f => exact ⟨f, rfl⟩

theorem Table.Sound.get {t : Table} (h : t.Sound) {n : Int} {f : Formula} (hf : t.get n = .ok f) :
    f.value? = some n ∧ f.Proper := by
  unfold Table.get at hf
  cases hfind : t.find? n with
  | none =>
      simp only [hfind, Formula.ofNumber] at hf
      by_cases hn : n ≤ 0
      · rw [if_pos hn] at hf
        cases hf
      · rw [if_neg hn] at hf
        cases hf
        exact ⟨rfl, Int.not_le.mp hn⟩
  | some g =>
      rw [hfind] at hf
      cases hf
      obtain ⟨⟨key, g⟩, hentry, rfl⟩ := Option.map_eq_some_iff.mp hfind
      have hkey : key = n := by simpa using List.find?_some hentry
      rw [← hkey]
      exact h _ (List.mem_of_find?_eq_some hentry)

/-- The units of a formula are units of a program, and no pointer is among them. -/
theorem Formula.isUnit_of_mem_units {f : Formula} {u : Instruction} (hu : u ∈ f.units) :
    u.IsUnit ∧ .pointer ∉ u.expand := by
  have hop : ∀ o : Op, o ≠ .init → o ≠ .extend → o ≠ .pointer →
      (Instruction.op o).IsUnit ∧ .pointer ∉ (Instruction.op o).expand :=
    fun o hinit hextend hpointer => ⟨⟨hinit, hextend⟩, fun h => hpointer (List.mem_singleton.mp h).symm⟩
  induction f with
  | leaf n =>
      rw [units, List.mem_append, List.mem_singleton] at hu
      obtain hu | rfl := hu
      · unfold Instruction.blockOf at hu
        split at hu
        · rw [List.mem_singleton.mp hu]
          refine ⟨trivial, fun h => ?_⟩
          cases List.eq_of_mem_replicate h
        · cases hu
      · exact hop _ (by decide) (by decide) (by decide)
  | binary operator left right ihleft ihright =>
      rw [units, List.mem_append, List.mem_append, List.mem_singleton] at hu
      obtain (hu | hu) | rfl := hu
      · exact ihleft hu
      · exact ihright hu
      · cases operator <;> exact hop _ (by decide) (by decide) (by decide)
  | power base exponent ih =>
      rw [units, List.mem_append, List.mem_append] at hu
      obtain (hu | hu) | hu := hu
      · exact ih hu
      · rw [List.eq_of_mem_replicate hu]
        exact hop _ (by decide) (by decide) (by decide)
      · rw [List.eq_of_mem_replicate hu]
        exact hop _ (by decide) (by decide) (by decide)

theorem nine_le_of_isPrintable {c : Char} (h : isPrintable c = true) : 9 ≤ c.toNat := by
  unfold isPrintable at h
  simp only [Bool.or_eq_true, Bool.and_eq_true, decide_eq_true_eq] at h
  omega

theorem plain_running : Instruction.running.Plain := ⟨fun _ _ _ _ => rfl, fun _ _ _ _ => rfl, fun _ _ _ => rfl⟩

theorem printing_eq_ok (table : Table) {cs : List Char} (hcs : ∀ c ∈ cs, 1 ≤ c.toNat) :
    ∃ body, printing table cs = .ok body := by
  induction cs with
  | nil => exact ⟨[], rfl⟩
  | cons c rest ih =>
      have hc := hcs c List.mem_cons_self
      obtain ⟨f, hf⟩ := table.get_eq_ok (n := (c.toNat : Int)) (by omega)
      obtain ⟨body, hbody⟩ := ih fun d hd => hcs d (List.mem_cons_of_mem _ hd)
      refine ⟨.number f :: .op .outChar :: body, ?_⟩
      rw [printing, Table.number, hf, hbody]
      rfl

theorem printing_cons_eq_ok {table : Table} {c : Char} {rest : List Char} {body : List Instruction}
    (h : printing table (c :: rest) = .ok body) : ∃ f body', table.get c.toNat = .ok f ∧
      printing table rest = .ok body' ∧ body = .number f :: .op .outChar :: body' := by
  obtain ⟨number, hnumber, h⟩ := bind_eq_ok h
  obtain ⟨f, hf, hresult⟩ := bind_eq_ok hnumber
  obtain ⟨body', hbody, hend⟩ := bind_eq_ok h
  cases hresult
  cases hend
  exact ⟨f, body', hf, hbody, rfl⟩

theorem isUnit_of_printing {table : Table} {cs : List Char} {body : List Instruction}
    (h : printing table cs = .ok body) {u : Instruction} (hu : u ∈ body.flatMap Instruction.units) :
    u.IsUnit ∧ .pointer ∉ u.expand := by
  induction cs generalizing body with
  | nil =>
      cases h
      cases hu
  | cons c rest ih =>
      obtain ⟨f, body', _, hbody, rfl⟩ := printing_cons_eq_ok h
      rw [List.flatMap_cons, List.flatMap_cons, List.mem_append, List.mem_append] at hu
      obtain hu | hu | hu := hu
      · exact Formula.isUnit_of_mem_units hu
      · rw [List.mem_singleton.mp hu]
        exact ⟨⟨by decide, by decide⟩, by decide⟩
      · exact ih hbody hu

/-- The units made of characters print them and keep the stack. -/
theorem running_printing {table : Table} (htable : table.Sound) {cs : List Char} {body : List Instruction}
    (h : printing table cs = .ok body) (stack : List Int) (p : Position) (heading : Heading) (out : String) :
    ∃ q, Instruction.running.run 0 (body.flatMap Instruction.units) ⟨stack, 1, p, heading, out⟩ =
      .ok ⟨stack, 1, q, heading, out ++ String.ofList cs⟩ := by
  induction cs generalizing body p out with
  | nil =>
      cases h
      refine ⟨p, ?_⟩
      have hout : out ++ String.ofList [] = out := String.append_empty
      rw [hout]
      rfl
  | cons c rest ih =>
      obtain ⟨f, body', hf, hbody, rfl⟩ := printing_cons_eq_ok h
      obtain ⟨hvalue, hproper⟩ := htable.get hf
      obtain ⟨q, hq⟩ := ih hbody ((p.stepped heading f.cost).stepped heading 1) (out.push c)
      refine ⟨q, ?_⟩
      have hout : out.push c ++ String.ofList rest = out ++ String.ofList (c :: rest) := by
        rw [← String.toList_inj]
        simp
      have hunits : (Instruction.number f :: .op .outChar :: body').flatMap Instruction.units =
          f.units ++ ([.op .outChar] ++ body'.flatMap Instruction.units) := rfl
      rw [hunits, Pass.run_append, plain_running.run_units 0 0, Instruction.running_formula 0 hproper hvalue, ok_bind,
        Pass.run_append, plain_running.run_op 0 0, Instruction.running_step, Op.apply_outChar, ok_bind, hq, hout]

/-! ### Synthesis -/

theorem compile_eq_ok (text : List Char) (table : Table) : ∃ compiled, compile text table = .ok compiled := by
  have hcodes : ∀ c ∈ text.filter isPrintable, 1 ≤ c.toNat := fun c hc =>
    Nat.le_trans (by decide) (nine_le_of_isPrintable (List.mem_filter.mp hc).2)
  obtain ⟨body, hbody⟩ := printing_eq_ok table hcodes
  refine ⟨⟨body⟩, ?_⟩
  rw [compile, hbody]
  rfl

theorem printing_of_compile {text : List Char} {table : Table} {compiled : Program}
    (h : compile text table = .ok compiled) : printing table (text.filter isPrintable) = .ok compiled.body := by
  obtain ⟨body, hbody, hresult⟩ := bind_eq_ok h
  cases hresult
  exact hbody

/-- A program laid out on a curve prints the characters it was compiled from and leaves nothing on the stack. -/
theorem run_of_attempt {text : List Char} {table : Table} (htable : table.Sound) {compiled p : Program} {order : Nat}
    (hcompile : compile text table = .ok compiled) (h : attempt compiled.units order = .ok p) :
    ∃ e, p.run = .ok e ∧ e.state.output = String.ofList (text.filter isPrintable) ∧ e.state.stack = [] := by
  have hprinting := printing_of_compile hcompile
  have hunits : ∀ u ∈ compiled.units, u.IsUnit := fun u hu => (isUnit_of_printing hprinting hu).1
  obtain ⟨ts, htokens, hpack⟩ := Layout.attempt_eq_ok h
  obtain ⟨ts', htokens', hcapacity⟩ := Layout.Token.tokenize_generate order
  rw [htokens] at htokens'
  cases htokens'
  have hpacked := Layout.packed_of_pack (fun u hu => (hunits u hu).size_nonneg) hpack
  have hagree := hpacked.agree_run hunits fun capacity hc => (hcapacity capacity hc).trans (by decide)
  obtain ⟨q, hq⟩ := running_printing htable hprinting [] (Position.origin.stepped .east 1) .east ""
  have hplain : (Program.run ⟨compiled.units⟩).map Execution.state =
      .ok ⟨[], 1, q, .east, "" ++ String.ofList (text.filter isPrintable)⟩ := by
    rw [Program.map_state_run]
    exact hq
  rw [hplain] at hagree
  obtain ⟨t, hstate, hsame⟩ := hagree.of_ok_left
  have hrun : p.run.map Execution.state = .ok t := hstate
  cases he : p.run with
  | error fault =>
      rw [he] at hrun
      cases hrun
  | ok e =>
      rw [he] at hrun
      cases hrun
      exact ⟨e, rfl, hsame.output.symm.trans String.empty_append, hsame.stack.symm⟩

theorem synthesize_of_compile {text : List Char} {table : Table} {compiled : Program}
    (h : compile text table = .ok compiled) (orders : Orders) :
    synthesize text table orders = (fit compiled.units orders).mapError SynthesisError.layout >>= fun f =>
      f.program.run.mapError SynthesisError.fault >>= fun e => .ok ⟨f.program, f.order, e⟩ := by
  rw [synthesize, h]
  rfl

/-- A synthesis is a program laid out on the curve of its order, with its run. -/
theorem synthesize_eq_ok {text : List Char} {table : Table} {orders : Orders} {s : Synthesis}
    (h : synthesize text table orders = .ok s) : ∃ compiled, compile text table = .ok compiled ∧
      attempt compiled.units s.order = .ok s.program ∧ s.program.run = .ok s.execution := by
  obtain ⟨compiled, hcompile⟩ := compile_eq_ok text table
  rw [synthesize_of_compile hcompile] at h
  obtain ⟨f, hfit, h⟩ := bind_eq_ok h
  obtain ⟨e, hrun, hresult⟩ := bind_eq_ok h
  cases hresult
  obtain ⟨f', hfit', hattempt⟩ | ⟨⟨last, hfit'⟩, _⟩ := Layout.fit_cases compiled.units orders
  · rw [mapError_eq_ok hfit] at hfit'
    cases hfit'
    exact ⟨compiled, hcompile, hattempt, mapError_eq_ok hrun⟩
  · rw [mapError_eq_ok hfit] at hfit'
    cases hfit'

/-- Synthesis with a sound table makes a program that prints exactly the printable characters of the text and leaves
the stack empty. It fails only when no curve of the range has room, and then reports just this. -/
theorem output_synthesize {table : Table} (htable : table.Sound) (text : List Char) (orders : Orders) :
    (∃ s, synthesize text table orders = .ok s ∧ s.output = String.ofList (text.filter isPrintable) ∧
      s.execution.state.stack = []) ∨
    ∃ compiled last, compile text table = .ok compiled ∧
      (∀ order, orders.first ≤ order → order ≤ orders.last → ∀ p, attempt compiled.units order ≠ .ok p) ∧
      synthesize text table orders = .error (.layout (.exhausted orders.last last)) := by
  obtain ⟨compiled, hcompile⟩ := compile_eq_ok text table
  rw [synthesize_of_compile hcompile]
  obtain ⟨f, hfit, hattempt⟩ | ⟨⟨last, hfit⟩, hfail⟩ := Layout.fit_cases compiled.units orders
  · obtain ⟨e, hrun, hresult⟩ := run_of_attempt htable hcompile hattempt
    refine .inl ⟨⟨f.program, f.order, e⟩, ?_, hresult⟩
    rw [hfit, Except.mapError, ok_bind, hrun]
    rfl
  · refine .inr ⟨compiled, last, hcompile, hfail, ?_⟩
    rw [hfit]
    rfl

/-- With a formula for the code of a tabulator, a tabulator and a letter outside ASCII fit on the first curve. -/
theorem output_synthesize_tabulator :
    let table : Table := ⟨[(9, .power (.leaf 3) 2)], List.pairwise_singleton _ _⟩
    table.Sound ∧ ∃ s, synthesize ['é', '\t'] table ⟨1, 1⟩ = .ok s ∧ s.output = "\t" ∧ s.execution.state.stack = [] := by
  intro table
  have htable : table.Sound := by
    intro e he
    rw [List.mem_singleton.mp he]
    exact ⟨rfl, (by decide : (1 : Int) ≤ 3), by decide⟩
  refine ⟨htable, ?_⟩
  obtain h | ⟨compiled, last, hcompile, hfail, _⟩ := output_synthesize htable ['é', '\t'] ⟨1, 1⟩
  · exact h
  · have hcompiled : compile ['é', '\t'] table = .ok ⟨[.number (.power (.leaf 3) 2), .op .outChar]⟩ := rfl
    rw [hcompiled] at hcompile
    cases hcompile
    have hroom : (attempt (Program.units ⟨[.number (.power (.leaf 3) 2), .op .outChar]⟩) 1).isOk = true := by
      decide +kernel
    cases hattempt : attempt (Program.units ⟨[.number (.power (.leaf 3) 2), .op .outChar]⟩) 1 with
    | error e =>
        rw [hattempt] at hroom
        cases hroom
    | ok p => exact absurd hattempt (hfail 1 (by decide) (by decide) p)

end CodelCurve
