import CycleBounds.Proofs.Run.Walk

/-!
# Complete paths

The ways through a program on which every loop that is entered runs for a fixed number of whole
rounds, from its header to its sink, and is left only then, from its header or its sink. A path is
the list of the fetches that are issued on it. In contrast to an execution, which leaves a loop in
the middle of a round, a path is put together from paths through the parts of the program:

* `Path.fetch` and `Path.call` for the instructions of a block,
* `Path.block`, `Path.pass` and `Path.loop` for what a block of an order stands for,
* `Path.enter` and `Path.next` for a region, and `Path.procedure` for a procedure.
-/

namespace CycleBounds

/-- How often a loop runs in a scenario: at worst, a header that is not counted by the bound runs
once more. -/
def Scenario.rounds (scenario : Scenario) (loop : Code.Loop) : Nat :=
  if scenario = .worst ∧ ¬ loop.naturalExit then loop.bound + 1 else loop.bound

end CycleBounds

namespace CycleBounds.Run

open Code (Program Procedure Loop Block Instruction)

/-- A part of a program that control passes through. -/
inductive Part where
  /-- The first `n` instructions of a block. -/
  | code (p : Procedure) (b : Nat) (context : Context) (n : Nat)
  /-- What the block `r` of the order of a region stands for, left after the block `u`. -/
  | element (p : Procedure) (region : Option Nat) (context : Context) (r u : Nat)
  /-- A region, left after the block `u`. -/
  | body (p : Procedure) (region : Option Nat) (context : Context) (u : Nat)
  /-- A called procedure. -/
  | procedure (q : Nat)

def roundContext (context : Context) (round : Nat) : Context :=
  context.nest (if round = 0 then .first else .steady)

/-- A way through a part of a program, by the fetches issued on it, earliest first. Loops run for
the given numbers of rounds. -/
inductive Path (program : Program) (rounds : Loop → Nat) : Part → List Issue → Prop
  | start {p b context} : Path program rounds (.code p b context 0) []
  | fetch {p b context n path} {block : Block} {i : Instruction} :
      Path program rounds (.code p b context n) path → p.blocks[b]? = some block →
      block.instructions[n]? = some i → i.callee = none →
      Path program rounds (.code p b context (n + 1)) (path ++ [⟨⟨p.id, b, context⟩, n, i.address⟩])
  | call {p b context n path q path'} {block : Block} {i : Instruction} :
      Path program rounds (.code p b context n) path → p.blocks[b]? = some block →
      block.instructions[n]? = some i → i.callee = some q →
      Path program rounds (.procedure q) path' →
      Path program rounds (.code p b context (n + 1))
        (path ++ ⟨⟨p.id, b, context⟩, n, i.address⟩ :: path')
  | block {p region context b path} {block : Block} : p.blocks[b]? = some block →
      (p.headerOf? b = none ∨ p.headerOf? b = region) →
      Path program rounds (.code p b context block.instructions.length) path →
      Path program rounds (.element p region context b b) path
  /-- A loop of bound zero is passed. -/
  | pass {p region context r u l} {loop : Loop} : p.headerOf? r = some l → some l ≠ region →
      p.loops[l]? = some loop → loop.bound = 0 → u ∈ loop.blocks →
      Path program rounds (.element p region context r u) []
  | loop {p region context r u l} {loop : Loop} {path : Nat → List Issue} :
      p.headerOf? r = some l → some l ≠ region → p.loops[l]? = some loop → 0 < loop.bound →
      (∀ k < rounds loop,
        Path program rounds (.body p (some l) (roundContext context k) loop.sink) (path k)) →
      (u = loop.header ∨ u = loop.sink) →
      Path program rounds (.element p region context r u)
        ((List.range (rounds loop)).flatMap path)
  | enter {p region context r u path} : (p.orderOf region).head? = some r →
      Path program rounds (.element p region context r u) path →
      Path program rounds (.body p region context u) path
  | next {p region context u v w path path'} : Path program rounds (.body p region context u) path →
      p.Edge u v → v ∈ p.orderOf region →
      Path program rounds (.element p region context v w) path' →
      Path program rounds (.body p region context w) (path ++ path')
  | procedure {p q u path} : program.procedures[q]? = some p → u ∈ p.sinks →
      Path program rounds (.body p none .root u) path → Path program rounds (.procedure q) path

variable {program : Program} {rounds : Loop → Nat} {p : Procedure} {region : Option Nat}
  {context : Context} {r u : Nat} {path : List Issue}

/-- A path through what a block stands for ends in it. -/
theorem Path.standsFor (h : Path program rounds (.element p region context r u) path)
    (hp : p.WellFormed) : p.StandsFor region r u := by
  cases h with
  | block _ hself => exact .inl ⟨rfl, hself⟩
  | pass hh hne hl _ hu => exact .inr ⟨_, _, hh, hne, hl, hu⟩
  | loop hh hne hl _ _ hu => exact .inr ⟨_, _, hh, hne, hl, hp.end_mem hl hu⟩

/-- A path through a region ends in it. -/
theorem Path.inside (h : Path program rounds (.body p region context u) path)
    (hp : p.WellFormed) : p.Inside region u := by
  cases h with
  | enter hhead helement =>
    exact hp.inside (List.mem_of_mem_head? hhead) (helement.standsFor hp)
  | next _ _ hv helement => exact hp.inside hv (helement.standsFor hp)

end CycleBounds.Run
