import Mathlib.Data.List.Infix
import Mathlib.Data.Set.Basic
import Mathlib.Order.Basic

/-! What a replicated log is for, stated over what has happened so far.  A `History` records who
stood for election and with which log, who voted for whom, which leader each term had and the log it
built, which prefixes were acknowledged, and which were committed.  Nothing here mentions messages
or the state of a node: a message in flight is a claim about the history, and the history only
grows.  `History.OK` lists the conditions that the protocol keeps; leader completeness and election
safety follow from them alone. -/

namespace RaftStore.Consensus

variable {N E : Type}

/-- The term of a log's last entry, or 0 for an empty log. -/
def lastTerm (term : E → ℕ) (l : List E) : ℕ := (l.getLast?.map term).getD 0

/-- The election restriction: `cl` is at least as up to date as `vl`. -/
def UpToDate (term : E → ℕ) (cl vl : List E) : Prop :=
  lastTerm term vl < lastTerm term cl ∨
    lastTerm term cl = lastTerm term vl ∧ vl.length ≤ cl.length

/-- Terms never decrease along the log. -/
def Mono (term : E → ℕ) (l : List E) : Prop := l.Pairwise fun a b => term a ≤ term b

/-- `p` covers every configuration entry of `q`. -/
def Covers (isConf : E → Prop) (p q : List E) : Prop :=
  ∀ r e, r ++ [e] <+: q → isConf e → r ++ [e] <+: p

/-- Every configuration entry of `l` was appended above a prefix that ends in the entry's own term,
covers the configuration entries before it, and is also held by `l'`. -/
def Linked (term : E → ℕ) (isConf : E → Prop) (l l' : List E) : Prop :=
  ∀ q e, q ++ [e] <+: l → isConf e →
    ∃ p, p ≠ [] ∧ p <+: q ∧ p <+: l' ∧ lastTerm term p = term e ∧ Covers isConf p q

/-- Two logs whose configurations may meet in one election or one commit. -/
structure Compatible (term : E → ℕ) (isConf : E → Prop) (admits : List E → E → Prop)
    (l l' : List E) : Prop where
  mono : Mono term l
  mono' : Mono term l'
  admitted : ∀ q e, q ++ [e] <+: l → admits q e
  admitted' : ∀ q e, q ++ [e] <+: l' → admits q e
  linked : Linked term isConf l l'
  linked' : Linked term isConf l' l
  /-- Entries of one term come from one leader's log. -/
  same : ∀ q e q' e', q ++ [e] <+: l → q' ++ [e'] <+: l' → term e = term e' →
    q ++ [e] <+: l' ∨ q' ++ [e'] <+: l

/-- The rules of membership: which entries change the configuration, which entries may follow a
log, and which sets of nodes decide for a node that holds a log. -/
structure Rules (N E : Type) where
  term : E → ℕ
  isConf : E → Prop
  admits : List E → E → Prop
  Quorum : List E → Set N → Prop
  /-- Sets that decide for compatible logs share a node. -/
  overlap : ∀ l l', Compatible term isConf admits l l' →
    ∀ Q Q', Quorum l Q → Quorum l' Q' → (Q ∩ Q').Nonempty

/-- What has happened in a cluster so far. -/
structure History (N E : Type) where
  /-- The log with which a node stood for election in a term. -/
  cand : ℕ → N → Option (List E)
  /-- The node's vote in a term, with the log it held when it voted. -/
  vote : N → ℕ → Option (N × List E)
  leader : ℕ → Option N
  /-- The log that the leader of a term has built. -/
  log : ℕ → List E
  /-- The node has told the term's leader that it holds this prefix of the leader's log. -/
  ack : N → ℕ → List E → Prop
  /-- The term's leader committed the first prefix while its log was the second. -/
  commit : ℕ → List E → List E → Prop

/-- The history of a cluster that has done nothing. -/
def History.empty : History N E where
  cand _ _ := none
  vote _ _ := none
  leader _ := none
  log _ := []
  ack _ _ _ := False
  commit _ _ _ := False

namespace History

variable (R : Rules N E) (H : History N E)

/-- The leader of term `t` was elected with the log `el`. -/
def Elected (t : ℕ) (el : List E) : Prop := ∃ n, H.leader t = some n ∧ H.cand t n = some el

/-- Every entry of `l` stands where its term's leader put it, above the same entries. -/
def Path (l : List E) : Prop :=
  ∀ q e, q ++ [e] <+: l → (H.leader (R.term e)).isSome ∧ q ++ [e] <+: H.log (R.term e)

/-- What `v` had acknowledged before term `t` was still in the log `vl` it voted with, provided
that the leaders elected since then, in terms that satisfy `upto`, held it too. -/
def Keeps (v : N) (t : ℕ) (upto : ℕ → Prop) (vl : List E) : Prop :=
  ∀ t0 p, t0 < t → H.ack v t0 p →
    (∀ t1 el, t0 < t1 → upto t1 → H.Elected t1 el → p <+: el) → p <+: vl

/-- The conditions that the protocol keeps on the history. -/
structure OK : Prop where
  cand_lt : ∀ {t n l}, H.cand t n = some l → ∀ e ∈ l, R.term e < t
  cand_mono : ∀ {t n l}, H.cand t n = some l → Mono R.term l
  cand_path : ∀ {t n l}, H.cand t n = some l → H.Path R l
  /-- A leader's log is the one it was elected with, followed by entries of its own term. -/
  led : ∀ {t n}, H.leader t = some n →
    ∃ el own, H.cand t n = some el ∧ H.log t = el ++ own ∧ ∀ e ∈ own, R.term e = t
  log_path : ∀ {t n}, H.leader t = some n → H.Path R (H.log t)
  log_admits : ∀ {t n}, H.leader t = some n → ∀ q e, q ++ [e] <+: H.log t → R.admits q e
  /-- A leader was elected by votes that were cast before its term had one. -/
  won : ∀ {t n}, H.leader t = some n → ∃ el Q, H.cand t n = some el ∧ R.Quorum el Q ∧
    ∀ v ∈ Q, ∃ vl, H.vote v t = some (n, vl) ∧ H.Keeps v t (· < t) vl
  voted : ∀ {v t n vl}, H.vote v t = some (n, vl) → ∃ cl, H.cand t n = some cl ∧
    UpToDate R.term cl vl ∧ Mono R.term vl ∧ H.Keeps v t (· ≤ t) vl
  acked : ∀ {v t p}, H.ack v t p → ∃ n, H.leader t = some n ∧ p <+: H.log t
  /-- A commit is of an entry of the leader's own term, acknowledged by a quorum of its log. -/
  committed : ∀ {t p l}, H.commit t p l → ∃ n Q, H.leader t = some n ∧ p <+: l ∧ l <+: H.log t ∧
    p ≠ [] ∧ lastTerm R.term p = t ∧ R.Quorum l Q ∧ ∀ v ∈ Q, H.ack v t p
  /-- A configuration entry was appended after a commit of the same term that covers the
  configuration entries before it. -/
  conf : ∀ {t n}, H.leader t = some n → ∀ q e, q ++ [e] <+: H.log t → R.isConf e → R.term e = t →
    ∃ p l, H.commit t p l ∧ p <+: q ∧ Covers R.isConf p q
  /-- The configuration entries of a leader's own term that a commit counts with were each appended
  after a smaller commit. -/
  commit_conf : ∀ {t p l}, H.commit t p l → ∀ q e, q ++ [e] <+: l → R.isConf e → R.term e = t →
    ∃ p0 l0, H.commit t p0 l0 ∧ p0 <+: q ∧ Covers R.isConf p0 q ∧ p0.length < p.length

end History
end RaftStore.Consensus
