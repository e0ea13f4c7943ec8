import Vantage.Agb.Engine

/-!
# Digest-named statements

Echo and ready statements may name their proposal by digest. They stay buffered until the
body is known, by a local fix or by a peer that serves it, and are then handed to the engine
as by-value statements.

A known body is stored with the proof that it hashes to the digest it is filed under.
-/

namespace Vantage

/-- An echo by digest that waits for its body. -/
structure BufferedEcho (D : Type) where
  digest : D
  grade : ℕ
  origin : Option ℕ
  avail : Option AvailClaim

/-- A READY by digest that waits for its body. -/
structure BufferedReady (D : Type) where
  digest : D
  grade : ReadyGrade

/-- When a body was last asked for, of how many, and how often. -/
structure FetchState where
  last : ℕ
  nextWidth : ℕ
  attempts : ℕ

def maxPendingFetch : ℕ := 1024

def fetchWidthStart : ℕ := 2

def maxFetchAttempts : ℕ := 4

def KnownBody {K D : Type} (S : Session K D) (d : D) : Type :=
  { p : ViewProposal K D // (ProposalOut.single p).digest S = d }

/-- The statements by digest, and the bodies that are known or asked for. -/
structure DigestStatements {K D : Type} (S : Session K D) where
  bufferedEcho : Table ℕ (Table K (BufferedEcho D)) := ∅
  bufferedReady : Table ℕ (Table K (BufferedReady D)) := ∅
  knownBodies : AList (fun key : ℕ × D => KnownBody S key.2) := ∅
  pendingFetch : Table (ℕ × D) FetchState := ∅
  fetchAnswered : Finset (ℕ × D × K) := ∅
  minLiveView : ℕ := 1

namespace DigestStatements

variable {K D : Type} [LinearOrder K] [LinearOrder D] {S : Session K D}

def isPruned (ds : DigestStatements S) (view : ℕ) : Bool := decide (view < ds.minLiveView)

def fetchRetryInterval (cfg : Config K) : ℕ := cfg.delta * 8

def gcBelow (floor : ℕ) (ds : DigestStatements S) : DigestStatements S :=
  if floor ≤ ds.minLiveView then ds
  else
    { bufferedEcho :=
        (ds.bufferedEcho.keys.filter (· < floor)).foldl (fun m v => m.erase v) ds.bufferedEcho
      bufferedReady :=
        (ds.bufferedReady.keys.filter (· < floor)).foldl (fun m v => m.erase v) ds.bufferedReady
      knownBodies :=
        (ds.knownBodies.keys.filter (·.1 < floor)).foldl (fun m v => m.erase v) ds.knownBodies
      pendingFetch :=
        (ds.pendingFetch.keys.filter (·.1 < floor)).foldl (fun m v => m.erase v) ds.pendingFetch
      fetchAnswered := ds.fetchAnswered.filter (floor ≤ ·.1)
      minLiveView := floor }

def echoesAt (ds : DigestStatements S) (view : ℕ) : Table K (BufferedEcho D) :=
  (ds.bufferedEcho.lookup view).getD ∅

def readiesAt (ds : DigestStatements S) (view : ℕ) : Table K (BufferedReady D) :=
  (ds.bufferedReady.lookup view).getD ∅

def fixedBody (agb : AgbEngine S) (view : ℕ) (digest : D) : Option (KnownBody S digest) :=
  match agb.fixedProposal view with
  | some ⟨.single p, d, hd, _⟩ => if h : d = digest then some ⟨p, h ▸ hd.symm⟩ else none
  | _ => none

/-- A verified body for `(view, digest)`: a known one, or the locally fixed one, which is
then remembered. -/
def resolveBody (view : ℕ) (digest : D) (agb : AgbEngine S) (ds : DigestStatements S) :
    DigestStatements S × Option (KnownBody S digest) :=
  match ds.knownBodies.lookup (view, digest) with
  | some p => (ds, some p)
  | none =>
    match fixedBody agb view digest with
    | some p => ({ ds with knownBodies := ds.knownBodies.insert (view, digest) p }, some p)
    | none => (ds, none)

def dueEchoes (ds : DigestStatements S) (view : ℕ) (digest : D) : List (K × BufferedEcho D) :=
  (ds.echoesAt view).sortedKeys.filterMap fun sender =>
    ((ds.echoesAt view).lookup sender).bind fun b =>
      if b.digest = digest then some (sender, b) else none

def dueReadies (ds : DigestStatements S) (view : ℕ) (digest : D) :
    List (K × BufferedReady D) :=
  (ds.readiesAt view).sortedKeys.filterMap fun sender =>
    ((ds.readiesAt view).lookup sender).bind fun b =>
      if b.digest = digest then some (sender, b) else none

/-- Remove senders from the bucket of a view, and the bucket once it is empty. -/
def removeSenders {β : Type} (m : Table ℕ (Table K β)) (view : ℕ) (senders : List K) :
    Table ℕ (Table K β) :=
  match m.lookup view with
  | none => m
  | some bucket =>
    let bucket := senders.foldl (fun b k => b.erase k) bucket
    if bucket.keys = [] then m.erase view else m.insert view bucket

def echoOf (p : ViewProposal K D) (x : K × BufferedEcho D) : Echo K D :=
  ⟨p, x.2.grade, x.1, x.2.origin, x.2.avail⟩

def readyOf (p : ViewProposal K D) (x : K × BufferedReady D) : Ready K D :=
  ⟨p, x.2.grade, x.1⟩

/-- Hand every statement that waited for this body to the engine. -/
def drain (cfg : Config K) (view : ℕ) (digest : D) (p : ViewProposal K D) :
    Handler (DigestStatements S × AgbEngine S) (Effect K D) := fun (ds, agb) =>
  let echoes := ds.dueEchoes view digest
  let readies := ds.dueReadies view digest
  let r := ((Handler.forEach echoes fun x => AgbEngine.onEcho cfg (echoOf p x)).seq
    (Handler.forEach readies fun x => AgbEngine.onReady cfg (readyOf p x))) agb
  (({ ds with
      pendingFetch := ds.pendingFetch.erase (view, digest)
      bufferedEcho := removeSenders ds.bufferedEcho view (echoes.map Prod.fst)
      bufferedReady := removeSenders ds.bufferedReady view (readies.map Prod.fst) }, r.1), r.2)

def fetchTargets (ds : DigestStatements S) (view : ℕ) (digest : D) : List K :=
  ((ds.dueEchoes view digest).map Prod.fst ++
    (ds.dueReadies view digest).map Prod.fst).dedup.insertionSort (· ≤ ·)

def keyLe (a b : ℕ × D) : Bool :=
  decide (a.1 < b.1) || (decide (a.1 = b.1) && decide (a.2 ≤ b.2))

def highestFetch (m : Table (ℕ × D) FetchState) : Option (ℕ × D) :=
  m.keys.foldl (fun best k =>
    match best with
    | none => some k
    | some b => if keyLe b k then some k else some b) none

def evictFetches (key : ℕ × D) : ℕ → Table (ℕ × D) FetchState → Table (ℕ × D) FetchState
  | 0, m => m
  | fuel + 1, m =>
    if m.size < maxPendingFetch then m
    else
      match highestFetch m with
      | none => m
      | some highest => if keyLe highest key then m else evictFetches key fuel (m.erase highest)

/-- Fetch a body from buffered authors at most once per retry interval, and wider at every
retry. -/
def ensureFetch (cfg : Config K) (view : ℕ) (digest : D) (now : ℕ) :
    Handler (DigestStatements S) (Effect K D) := fun ds =>
  if ds.isPruned view then (ds, [])
  else
    let key := (view, digest)
    let fetch (width attempts : ℕ) : DigestStatements S × List (Effect K D) :=
      let pending := evictFetches key ds.pendingFetch.size ds.pendingFetch
      if maxPendingFetch ≤ pending.size then ({ ds with pendingFetch := pending }, [])
      else
        let ds := { ds with
          pendingFetch := pending.insert key ⟨now, width * 2, attempts + 1⟩ }
        (ds, ((ds.fetchTargets view digest).take width).map fun peer =>
          .bodyFetchTo peer view digest)
    match ds.pendingFetch.lookup key with
    | some st =>
      if now - st.last < fetchRetryInterval cfg then (ds, [])
      else if maxFetchAttempts ≤ st.attempts then
        ({ ds with pendingFetch := ds.pendingFetch.erase key }, [])
      else fetch st.nextWidth st.attempts
    | none => fetch fetchWidthStart 0

def bufferEcho (cfg : Config K) (msg : EchoDigest K D) (now : ℕ) :
    Handler (DigestStatements S) (Effect K D) := fun ds =>
  let bucket := ds.echoesAt msg.view
  if msg.sender ∈ bucket then
    ({ ds with bufferedEcho := ds.bufferedEcho.insert msg.view bucket }, [])
  else
    let bucket := bucket.insert msg.sender ⟨msg.digest, msg.grade, msg.origin, msg.avail⟩
    ensureFetch cfg msg.view msg.digest now
      { ds with bufferedEcho := ds.bufferedEcho.insert msg.view bucket }

/-- The first ready of a sender, or a homogeneous refinement of its buffered READY-mix. -/
def acceptsReady (bucket : Table K (BufferedReady D)) (digest : D) (sender : K)
    (grade : ReadyGrade) : Bool :=
  match bucket.lookup sender with
  | none => true
  | some old =>
    decide (old.digest = digest) && decide (old.grade = .mix) && decide (grade ≠ .mix)

/-- Buffer the first ready of a sender, or a homogeneous refinement of a buffered READY-mix
for the same digest, and fetch its body. -/
def bufferReady (cfg : Config K) (view : ℕ) (digest : D) (sender : K) (grade : ReadyGrade)
    (now : ℕ) : Handler (DigestStatements S) (Effect K D) := fun ds =>
  let bucket := ds.readiesAt view
  if acceptsReady bucket digest sender grade then
    let bucket := bucket.insert sender ⟨digest, grade⟩
    ensureFetch cfg view digest now
      { ds with bufferedReady := ds.bufferedReady.insert view bucket }
  else ({ ds with bufferedReady := ds.bufferedReady.insert view bucket }, [])

def hasBufferedStatementFor (ds : DigestStatements S) (view : ℕ) (digest : D) : Bool :=
  !(ds.dueEchoes view digest).isEmpty || !(ds.dueReadies view digest).isEmpty

/-! ### Entry points -/

/-- Run a handler of the buffers next to an engine it does not touch. -/
def besideAgb (h : Handler (DigestStatements S) (Effect K D)) :
    Handler (DigestStatements S × AgbEngine S) (Effect K D) := fun (ds, agb) =>
  (((h ds).1, agb), (h ds).2)

def onEchoDigest (cfg : Config K) (msg : EchoDigest K D) (now : ℕ) :
    Handler (DigestStatements S × AgbEngine S) (Effect K D) := fun (ds, agb) =>
  if ds.isPruned msg.view ∨ 1 < msg.grade then ((ds, agb), [])
  else
    match ds.resolveBody msg.view msg.digest agb with
    | (ds, some p) =>
      let r := AgbEngine.onEcho cfg ⟨p.1, msg.grade, msg.sender, msg.origin, msg.avail⟩ agb
      ((ds, r.1), r.2)
    | (ds, none) => besideAgb (bufferEcho cfg msg now) (ds, agb)

def onReadyDigest (cfg : Config K) (msg : ReadyDigest K D) (now : ℕ) :
    Handler (DigestStatements S × AgbEngine S) (Effect K D) := fun (ds, agb) =>
  if ds.isPruned msg.view then ((ds, agb), [])
  else
    match ds.resolveBody msg.view msg.digest agb with
    | (ds, some p) =>
      let r := AgbEngine.onReady cfg ⟨p.1, msg.grade, msg.sender⟩ agb
      ((ds, r.1), r.2)
    | (ds, none) =>
      besideAgb (bufferReady cfg msg.view msg.digest msg.sender msg.grade now) (ds, agb)

def onLocalFixed (cfg : Config K) (view : ℕ) :
    Handler (DigestStatements S × AgbEngine S) (Effect K D) := fun (ds, agb) =>
  match agb.fixedProposal view with
  | none => ((ds, agb), [])
  | some b =>
    match ds.resolveBody view b.digest agb with
    | (ds, some p) => drain cfg view b.digest p.1 (ds, agb)
    | (ds, none) => ((ds, agb), [])

/-- Serve a matching locally fixed body, to each requester at most once. -/
def onBodyFetch (requester : K) (view : ℕ) (digest : D) :
    Handler (DigestStatements S × AgbEngine S) (Effect K D) := fun (ds, agb) =>
  if ds.isPruned view ∨ (view, digest, requester) ∈ ds.fetchAnswered then ((ds, agb), [])
  else
    match fixedBody agb view digest with
    | none => ((ds, agb), [])
    | some p =>
      (({ ds with fetchAnswered := insert (view, digest, requester) ds.fetchAnswered }, agb),
        [.bodyServeTo requester view p.1])

/-- Release the at-most-once marks of a response that never reached the transport. -/
def unanswerFetch (requester : K) (view : ℕ) (ds : DigestStatements S) : DigestStatements S :=
  { ds with
    fetchAnswered := ds.fetchAnswered.filter fun x => ¬(x.1 = view ∧ x.2.2 = requester) }

/-- Accept a well-formed body that was requested or is named by a buffered statement. -/
def onBodyServe (cfg : Config K) (view : ℕ) (p : ViewProposal K D) :
    Handler (DigestStatements S × AgbEngine S) (Effect K D) := fun (ds, agb) =>
  let digest := (ProposalOut.single p).digest S
  if ds.isPruned view ∨ p.view ≠ view then ((ds, agb), [])
  else if (view, digest) ∉ ds.pendingFetch ∧ ds.hasBufferedStatementFor view digest = false then
    ((ds, agb), [])
  else if formed cfg.committee p.view p.c p.t p.m then
    drain cfg view digest p
      ({ ds with knownBodies := ds.knownBodies.insert (view, digest) ⟨p, rfl⟩ }, agb)
  else ((ds, agb), [])

def retryFetches (cfg : Config K) (now : ℕ) : Handler (DigestStatements S) (Effect K D) :=
  fun ds =>
    let due := (ds.pendingFetch.keys.mergeSort keyLe).filter fun key =>
      (ds.pendingFetch.lookup key).any fun st =>
        decide (fetchRetryInterval cfg ≤ now - st.last)
    Handler.forEach due (fun key => ensureFetch cfg key.1 key.2 now) ds

end DigestStatements

end Vantage
