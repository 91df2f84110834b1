import PoorguyMem.Reference
import PoorguyMem.Lib.Budget

/-!
# The token budget

A query goes through the ranked hits once. It looks at the budget before it looks
at the lifetime of a record, so a hit that is expired, and would not be returned,
can end the pass.
-/

namespace PoorguyMem

open ByteString Budget

variable {K : Type}

def hitTokens (hit : QueryHit K) : Nat := estimateTokenCount hit.content

/-- Whether the resident record of a hit is expired. -/
def expiredHit (engine : MemoryEngine K) (workspaceId : Bytes) (nowMs : UInt64)
    (hit : QueryHit K) : Bool :=
  match engine.records[recordMapKey workspaceId hit.memoryId]? with
  | some record => isExpired record nowMs
  | none => false

/-- A budget that is not positive is none. -/
def exceedsBudget (input : QueryInput K) (tokens : Nat) : Bool :=
  0 < input.tokenBudget ∧ input.tokenBudget < tokens

theorem exceedsBudget_mono {input : QueryInput K} (m n : Nat) (hmn : m ≤ n)
    (h : exceedsBudget input m = true) : exceedsBudget input n = true := by
  simp only [exceedsBudget, decide_eq_true_eq] at h ⊢
  omega

theorem exceedsBudget_zero (input : QueryInput K) : exceedsBudget input 0 = false := by
  simp only [exceedsBudget, decide_eq_false_iff_not]
  omega

theorem admitHits_eq (engine : MemoryEngine K) (input : QueryInput K) (nowMs : UInt64)
    (usedTokens : Nat) (hits : List (QueryHit K)) :
    admitHits engine input nowMs usedTokens hits =
      admitted hitTokens (expiredHit engine input.workspaceId nowMs)
        (fun n => exceedsBudget input (usedTokens + n)) hits := by
  induction hits generalizing usedTokens with
  | nil => rfl
  | cons hit rest ih =>
    have hshift : (fun n => exceedsBudget input (usedTokens + (hitTokens hit + n))) =
        fun n => exceedsBudget input (usedTokens + hitTokens hit + n) := by
      funext n
      rw [Nat.add_assoc]
    rw [admitHits, admitted, ih, ih, hshift]
    simp only [exceedsBudget, decide_eq_true_eq]
    rfl

section Query
variable [Field K] [LinearOrder K]

/-- The hits the retriever ranks for a query, with the reading of the clock by which
their records are expired. -/
def rankedHits (env : Platform K) (w : World K) (input : QueryInput K) :
    List (QueryHit K) × UInt64 :=
  let (retrieved, tick) := w.engine.retriever.query env input w.tick
  (retrieved.hits, env.clock tick)

/-- A query returns the longest prefix, of the ranked hits that are not expired, that
stays within the budget. -/
def ReturnsBudgetedPrefix (env : Platform K) (w : World K) (input : QueryInput K) : Prop :=
  let (hits, nowMs) := rankedHits env w input
  LongestPrefix hitTokens (exceedsBudget input)
    (kept (expiredHit w.engine input.workspaceId nowMs) hits) (query env w input).2.hits

/-- No expired hit exceeds what is left of the budget where the next hit that is not
expired would not. -/
def ExpiredHitsFit (env : Platform K) (w : World K) (input : QueryInput K) : Prop :=
  let (hits, nowMs) := rankedHits env w input
  NotCutShort hitTokens (expiredHit w.engine input.workspaceId nowMs) (exceedsBudget input) hits

/-- A query returns what it should exactly where no expired hit ends it early. -/
theorem query_budgeted_iff (env : Platform K) (w : World K) (input : QueryInput K)
    (hws : input.workspaceId ≠ []) :
    ReturnsBudgetedPrefix env w input ↔ ExpiredHitsFit env w input := by
  have hhits : (query env w input).2.hits = admitted hitTokens
      (expiredHit w.engine input.workspaceId (rankedHits env w input).2) (exceedsBudget input)
      (rankedHits env w input).1 := by
    have hzero : (fun n => exceedsBudget input (0 + n)) = exceedsBudget input := by
      funext n
      rw [Nat.zero_add]
    rw [query, if_neg hws]
    exact (admitHits_eq w.engine input _ 0 _).trans (by rw [hzero]; rfl)
  rw [ReturnsBudgetedPrefix, ExpiredHitsFit]
  dsimp only
  rw [hhits]
  exact longestPrefix_admit_iff exceedsBudget_mono (exceedsBudget_zero input) _

end Query

namespace Reference

/-- A clock that moves on by a minute with every reading. -/
def minutes (i : Nat) : UInt64 := UInt64.ofNat (60000 * (1 + min i 1000000))

def budgetQuery (text : Bytes) (tokenBudget : Int) : QueryInput ℚ where
  workspaceId := ascii "w"
  query := text
  topK := 8
  tokenBudget := tokenBudget
  filters := ⟨[], [], [], 0, 0, false⟩
  recallOptions := ⟨200, 200, 4⟩
  rerank := ⟨1, 1, 1, 1⟩

/-- A text of two tokens that lives for a second, and a text of one token. -/
def briefAndShort : World ℚ :=
  let brief := { recordInput (ascii "a") (ascii "handover") [] with ttlS := 1 }
  (perform (platform minutes) applied initial
    (write (ascii "w") [brief, recordInput (ascii "b") (ascii "ok") []])).1

end Reference

open Reference

/-- Without a budget the short text alone is returned. -/
theorem query_unbudgeted_brief : ReturnsBudgetedPrefix (platform minutes) briefAndShort
    (budgetQuery (ascii "handover") 0) := by
  refine (query_budgeted_iff _ _ _ (by decide)).mpr ?_
  intro before hit after _ _ hexceeds
  cases hexceeds

/-- The expired text ends the pass before the short one, which is within the budget. -/
theorem not_budgetedPrefix_brief : ¬ ReturnsBudgetedPrefix (platform minutes) briefAndShort
    (budgetQuery (ascii "handover") 1) := by
  intro h
  have hlen := h.longest _ (List.take_prefix 1 _) (by decide +kernel)
  revert hlen
  decide +kernel

end PoorguyMem
