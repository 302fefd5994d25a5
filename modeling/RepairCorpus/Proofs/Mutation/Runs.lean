import RepairCorpus.Mutation.Mutants
import RepairCorpus.Proofs.Mutation.Discovery
import RepairCorpus.Proofs.Mutation.Restoring

/-!
# Runs over the candidates of a tree

A run finds its candidates once and then takes them one by one out of a tree that it changes and
puts back.  The candidates found at the start would be of no use if a step left anything behind.
None does: `MutantRun.mutate_eq` says that a step answers what the candidate gives in a copy of the
tree made for it alone, `Node.outcome`, and hands the tree on as it was.

From there on a run is a list.  After `k` calls the tree is the first one and the candidates to
come are those behind the first `k` (`MutantRun.after_eq`), whatever the calls have answered, and
the sequences of all mutants are collected from the outcomes (`MutantRun.sequencesFrom_eq`).

What a single outcome can be is said in `Node.OutcomeFor`: whether the candidate is skipped, fails
or is written depends on the owner, on the try statement's block and on whether the tree without
the try statement has a sequence, in this order.
-/

namespace RepairCorpus

/-! ## One candidate -/

namespace Node

/-- A tree with the try statement at a candidate's place taken apart; the tree itself where that
is not possible. -/
def unwrapped (tree : Node) (c : Candidate) : Node :=
  match tree.detach c with
  | .ok (tree, _) => tree
  | .error _ => tree

/-- What a candidate gives in a copy of the tree made for it alone. -/
def outcome (tree : Node) (c : Candidate) : Except Error Mutant :=
  match tree.detach c with
  | .ok (unwrapped, _) => unwrapped.sequence.map .sequence
  | .error (.unsupportedOwner kind) => .ok (.skipped kind)
  | .error e => .error e

/-- What the outcome has to be for the candidate whose owner is of kind `owner` and whose try
statement has the block `block`.  The owner is looked at first, then the block, then the writing:
under an owner that gives up no try statement, nobody looks at the block. -/
structure OutcomeFor (tree : Node) (c : Candidate) (owner : Kind) (block : Node) : Prop where
  /-- Skipped exactly when the owner does not give up try statements. -/
  skipped (kind : Kind) :
    tree.outcome c = .ok (.skipped kind) ↔ owner.givesUpTry = false ∧ owner = kind
  /-- An error exactly when the block is not a block statement, or the tree without the try
  statement cannot be written. -/
  failed (e : Error) :
    tree.outcome c = .error e ↔ owner.givesUpTry = true ∧
      (block.kind ≠ .blockStatement ∧ e = .malformed .tryBlockNotABlock ∨
        block.kind = .blockStatement ∧ (tree.unwrapped c).sequence = .error e)
  /-- Otherwise the sequence of the tree without the try statement. -/
  written (tokens : List Token) :
    tree.outcome c = .ok (.sequence tokens) ↔ owner.givesUpTry = true ∧
      block.kind = .blockStatement ∧ (tree.unwrapped c).sequence = .ok tokens
  /-- The try statement comes apart exactly when it is the writing that decides. -/
  detached :
    (∃ patch, tree.detach c = .ok (tree.unwrapped c, patch)) ↔
      owner.givesUpTry = true ∧ block.kind = .blockStatement

/-- What a detachment comes to where a try statement stands. -/
theorem detach_tryStatement {tree owner : Node} {c : Candidate} {own underlying : Tag}
    {block : Node} {handler finalizer : Option Node} (howner : tree.at? c.owner = some owner)
    (ht : owner.children[c.index]?
      = some ⟨own, underlying, .tryStatement block handler finalizer⟩) :
    owner.kind.givesUpTry = false ∧ tree.detach c = .error (.unsupportedOwner owner.kind) ∨
      owner.kind.givesUpTry = true ∧ block.kind ≠ .blockStatement ∧
        tree.detach c = .error (.malformed .tryBlockNotABlock) ∨
      owner.kind.givesUpTry = true ∧ block.kind = .blockStatement ∧
        ∃ unwrapped patch, tree.detach c = .ok (unwrapped, patch) := by
  cases hgives : owner.kind.givesUpTry with
  | false => exact Or.inl ⟨rfl, detach_of_not_givesUpTry howner hgives⟩
  | true =>
    rw [detach_of_part howner hgives ht]
    rcases OpenedTry.ofNode_tryStatement own underlying block handler finalizer with
      ⟨⟨o, ho⟩, hblock⟩ | ⟨ho, hblock⟩
    · exact Or.inr (Or.inr ⟨rfl, hblock, _, _, by rw [ho]; rfl⟩)
    · exact Or.inr (Or.inl ⟨rfl, hblock, by rw [ho]; rfl⟩)

/-- **Every candidate is a try statement with an owner, and its outcome is what these say.** -/
theorem outcomeFor_of_mem_candidates {tree : Node} {c : Candidate} (h : c ∈ tree.candidates) :
    ∃ owner underlying block handler finalizer, tree.at? c.owner = some owner ∧
      owner.children[c.index]?
        = some ⟨.inserted, underlying, .tryStatement block handler finalizer⟩ ∧
      OutcomeFor tree c owner.kind block := by
  obtain ⟨owner, t, howner, ht, hins⟩ := mem_candidates.mp h
  obtain ⟨hkind, hown⟩ := (isInsertedTry_iff t).mp hins
  obtain ⟨own, underlying, form⟩ := t
  obtain rfl : own = .inserted := hown
  cases form <;> simp only [kind, Form.kind, reduceCtorEq] at hkind
  case tryStatement block handler finalizer =>
    refine ⟨owner, underlying, block, handler, finalizer, howner, ht, ?_⟩
    rcases detach_tryStatement howner ht with
      ⟨hgives, hd⟩ | ⟨hgives, hblock, hd⟩ | ⟨hgives, hblock, unwrapped, patch, hd⟩
    · have houtcome : tree.outcome c = .ok (.skipped owner.kind) := by simp only [outcome, hd]
      constructor <;> simp [houtcome, hgives, hd]
    · have houtcome : tree.outcome c = .error (.malformed .tryBlockNotABlock) := by
        simp only [outcome, hd]
      constructor <;> simp [houtcome, hgives, hblock, hd, eq_comm]
    · have houtcome : tree.outcome c = unwrapped.sequence.map .sequence := by
        simp only [outcome, hd]
      have hunwrapped : tree.unwrapped c = unwrapped := by simp only [Node.unwrapped, hd]
      cases hs : unwrapped.sequence <;>
        constructor <;> simp [houtcome, hunwrapped, hgives, hblock, hd, hs, Except.map]

end Node

/-! ## A step -/

namespace Mutant

/-- The sequence of a mutant that was not skipped. -/
def tokens? : Mutant → Option (List Token)
  | .sequence tokens => some tokens
  | .skipped _ => none

end Mutant

namespace MutantRun

/-- **A step answers what the candidate gives on its own, and leaves the tree as it was.** -/
theorem mutate_eq (tree : Node) (c : Candidate) : mutate tree c = (tree.outcome c, tree) := by
  unfold mutate Node.outcome
  cases hd : tree.detach c with
  | error e => cases e <;> rfl
  | ok r =>
    obtain ⟨unwrapped, patch⟩ := r
    simp only [Node.restore_detach hd]

theorem next?_cons (tree : Node) (c : Candidate) (pending : List Candidate) :
    next? ⟨tree, c :: pending⟩ = some (tree.outcome c, ⟨tree, pending⟩) := by
  simp only [next?, mutate_eq]

/-! ## A whole run -/

/-- The run after a call for the next candidate.  When none is left, the call changes nothing. -/
def call (run : MutantRun) : MutantRun :=
  match run.next? with
  | none => run
  | some (_, run) => run

/-- The run over a tree after a number of calls. -/
def after (tree : Node) : Nat → MutantRun
  | 0 => start tree
  | calls + 1 => (after tree calls).call

/-- **The tree after any number of calls is the first one**, and the candidates to come are the
others. -/
theorem after_eq (tree : Node) (calls : Nat) :
    after tree calls = ⟨tree, tree.candidates.drop calls⟩ := by
  induction calls with
  | zero => rfl
  | succ k ih =>
    rw [after, ih, call]
    rcases Nat.lt_or_ge k tree.candidates.length with hk | hk
    · rw [List.drop_eq_getElem_cons hk, next?_cons]
    · rw [List.drop_eq_nil_of_le hk, List.drop_eq_nil_of_le (Nat.le_succ_of_le hk)]
      rfl

/-- The sequences of the candidates to come are collected from their outcomes, up to the first
error. -/
theorem sequencesFrom_eq (tree : Node) (cs : List Candidate) :
    sequencesFrom tree cs
      = ((cs.mapM tree.outcome).map (List.filterMap Mutant.tokens?), tree) := by
  induction cs with
  | nil => rfl
  | cons c cs ih =>
    rw [sequencesFrom, mutate_eq, List.mapM_cons]
    cases tree.outcome c with
    | error e => rfl
    | ok m =>
      cases m with
      | skipped kind =>
        simp only [ih]
        cases cs.mapM tree.outcome <;> rfl
      | sequence tokens =>
        simp only [ih]
        cases cs.mapM tree.outcome <;> rfl

/-- **A run never leaves a trace.**  After any number of calls the tree is exactly the first one.
The call for each candidate answers what the candidate gives in a copy of the tree made for it
alone, and leaves one candidate less; with all of them used up, every further call finds none.
The sequences of all mutants are those of the outcomes in the order of the candidates, or the
first error among them, and collecting them leaves the tree as it was. -/
theorem run_leaves_tree_and_yields_outcomes (tree : Node) :
    (∀ calls, (after tree calls).tree = tree ∧
      (after tree calls).pending.length = tree.candidates.length - calls) ∧
    (∀ i c, tree.candidates[i]? = some c →
      (after tree i).next? = some (tree.outcome c, after tree (i + 1)) ∧
      (after tree i).pending.length = (after tree (i + 1)).pending.length + 1 ∧
      ∃ owner underlying block handler finalizer, tree.at? c.owner = some owner ∧
        owner.children[c.index]?
          = some ⟨.inserted, underlying, .tryStatement block handler finalizer⟩ ∧
        tree.OutcomeFor c owner.kind block) ∧
    (∀ calls, tree.candidates.length ≤ calls → (after tree calls).next? = none) ∧
    tree.mutantSequences
      = (tree.candidates.mapM tree.outcome).map (List.filterMap Mutant.tokens?) ∧
    (sequencesFrom tree tree.candidates).2 = tree := by
  refine ⟨fun calls => ?_, fun i c hc => ?_, fun calls hcalls => ?_, ?_, ?_⟩
  · rw [after_eq]
    exact ⟨rfl, List.length_drop⟩
  · obtain ⟨hi, rfl⟩ := List.getElem?_eq_some_iff.mp hc
    refine ⟨?_, ?_, Node.outcomeFor_of_mem_candidates (List.mem_of_getElem? hc)⟩
    · rw [after_eq, after_eq, List.drop_eq_getElem_cons hi, next?_cons]
    · rw [after_eq, after_eq, List.drop_eq_getElem_cons hi, List.length_cons]
  · rw [after_eq, List.drop_eq_nil_of_le hcalls]
    rfl
  · rw [Node.mutantSequences, sequencesFrom_eq]
  · rw [sequencesFrom_eq]

end MutantRun

end RepairCorpus
