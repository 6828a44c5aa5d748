import Cyberway.FlatMap
import Cyberway.OrderStat

/-!
# Block header state

`block_header_state` is what a node keeps per block to validate the next
header: the block number, the active and pending producer schedules, the
shuffle slot of the active schedule, for each producer its last produced
block and the last block it implied irreversible, the confirmation counts
of the recent blocks, and the proposed and dpos last irreversible block
numbers. `next` validates a signed header against the state and builds the
state of the new block: `generate_next` schedules the producer and recomputes
the last irreversible block, `set_confirmed` counts the header's
confirmations, `update_active_schedule` promotes a pending schedule or
reshuffles the active one, and `set_new_producers` installs a proposed
schedule. Block numbers and slots are `uint32_t`, as in the source, and
wrap around as it does; the producer maps hold `uint32_t` block numbers and
are sorted by value for the last irreversible block. Block ids,
Merkle roots, signatures and header extensions are not modelled: each
header accepted here has a counterpart with the right `previous` id and
signature.
-/

namespace Cyberway.HeaderState

open FlatMap OrderStat

/-- `account_name`. -/
abbrev AccountName := ℕ

/-- `config::system_account_name`, `N(cyber)`. -/
def systemAccountName : AccountName := 5156247189629960192

/-- `config::maximum_tracked_dpos_confirmations`. -/
def maximumTrackedDposConfirmations : ℕ := 1024

/-- `producer_key`. -/
structure ProducerKey where
  /-- The producer. -/
  producerName : AccountName
  /-- Its block signing key, compared only. -/
  blockSigningKey : ℕ
  deriving DecidableEq, Repr

/-- `producer_schedule_type`. -/
structure ProducerSchedule where
  /-- Sequentially incrementing version number. -/
  version : UInt32 := 0
  /-- The producers in their order of production. -/
  producers : List ProducerKey := []
  deriving DecidableEq, Repr

/-- The fields of a signed block header that `next` reads and writes. -/
structure BlockHeader where
  /-- The block's slot. -/
  timestamp : UInt32 := 0
  /-- The producer that signed it. -/
  producer : AccountName := 0
  /-- How many blocks before this one it confirms. -/
  confirmed : UInt16 := 1
  /-- The version of the schedule it was produced under. -/
  scheduleVersion : UInt32 := 0
  /-- A schedule it proposes. -/
  newProducers : Option ProducerSchedule := none
  deriving DecidableEq, Repr

/-- `block_header_state`, without ids, Merkle roots and signatures. -/
structure BlockHeaderState where
  /-- The block's number. -/
  blockNum : UInt32 := 0
  /-- The block's header. -/
  header : BlockHeader := {}
  /-- The newest block with enough confirmations. -/
  dposProposedIrreversibleBlocknum : UInt32 := 0
  /-- The dpos last irreversible block. -/
  dposIrreversibleBlocknum : UInt32 := 0
  /-- The bft last irreversible block, copied along. -/
  bftIrreversibleBlocknum : UInt32 := 0
  /-- The block that proposed the pending schedule. -/
  pendingScheduleLibNum : UInt32 := 0
  /-- The slot at which the active schedule was last shuffled. -/
  scheduledShuffleSlot : UInt32 := 0
  /-- The proposed schedule, empty when there is none. -/
  pendingSchedule : ProducerSchedule := {}
  /-- The schedule that produces. -/
  activeSchedule : ProducerSchedule := {}
  /-- For each producer, the last block it produced. -/
  producerToLastProduced : Map AccountName UInt32 := .empty
  /-- For each producer, the proposed irreversible block when it last produced. -/
  producerToLastImpliedIrb : Map AccountName UInt32 := .empty
  /-- The signing key of the scheduled producer. -/
  blockSigningKey : ℕ := 0
  /-- Confirmations still missing, for the recent blocks, oldest first. -/
  confirmCount : List UInt8 := []

/-! ## The shuffle -/

section Shuffle

variable {α : Type}

/-- `std::swap(*(first + i), *(first + j))`. -/
def swapAt (l : List α) (i j : ℕ) : List α :=
  match l[i]?,l[j]? with
  | some a,some b => (l.set i b).set j a
  | _,_ => l

/-- The `j` of iteration `i` of `shuffle` over `s` elements: an xorshift of
the seed and `i`, reduced below `s - i`. -/
def shuffleIndex (seed : UInt32) (s i : ℕ) : ℕ :=
  let hi : UInt64 := seed.toUInt64<<<32
  let k := hi+(i.toUInt32).toUInt64*2685821657736338717
  let k := k^^^(k>>>12)
  let k := k^^^(k<<<25)
  let k := k^^^(k>>>27)
  let k := k*2685821657736338717
  let jmax : UInt32 := s.toUInt32-i.toUInt32
  i+(k%jmax.toUInt64).toNat

/-- `shuffle(first, last, seed)` of `random.hpp`, over the whole list. -/
def shuffle (l : List α) (seed : UInt32) : List α :=
  if l.length ≤ 1 then l
  else (List.range l.length).foldl (fun l i => swapAt l i (shuffleIndex seed l.length i)) l

/-- The swap of `shuffle` is the library's `List.swap`. -/
theorem swapAt_eq_swap (l : List α) (i j : ℕ) : swapAt l i j=l.swap i j := by
  rw [List.swap_eq]
  unfold swapAt
  split_ifs with h
  · simp [List.getElem?_eq_getElem h.1, List.getElem?_eq_getElem h.2]
  · rcases not_and_or.mp h with hi | hj
    · simp [List.getElem?_eq_none (Nat.le_of_not_lt hi)]
    · cases l[i]? <;> simp [List.getElem?_eq_none (Nat.le_of_not_lt hj)]

/-- Swaps, folded over any indices, only reorder the list. -/
theorem foldl_swapAt_perm (f : List α → ℕ → ℕ) :
    ∀ (is : List ℕ) (l : List α), (is.foldl (fun l i => swapAt l i (f l i)) l).Perm l
  | [],_ => .refl _
  | i::is,l => by
    rw [List.foldl_cons]
    refine (foldl_swapAt_perm f is _).trans ?_
    rw [swapAt_eq_swap]
    exact List.swap_perm l i (f l i)

/-- `shuffle` reorders the list. -/
theorem shuffle_perm (l : List α) (seed : UInt32) : (shuffle l seed).Perm l := by
  unfold shuffle
  split_ifs
  · exact .refl l
  · exact foldl_swapAt_perm _ _ l

@[simp] theorem length_shuffle (l : List α) (seed : UInt32) : (shuffle l seed).length=l.length :=
  (shuffle_perm l seed).length_eq

/-- Shuffling a suffix permutes the whole list. -/
theorem take_append_shuffle_perm (l : List α) (d : ℕ) (seed : UInt32) :
    (l.take d++shuffle (l.drop d) seed).Perm l := by
  have h := (shuffle_perm (l.drop d) seed).append_left (l.take d)
  rwa [List.take_append_drop] at h

end Shuffle

/-! ## The state transition -/

namespace BlockHeaderState

/-- `get_scheduled_producer`. The index is taken modulo the schedule size;
an empty schedule, a division by zero in the source, fails. -/
def getScheduledProducer (s : BlockHeaderState) (t : UInt32) : Option ProducerKey :=
  let n := s.activeSchedule.producers.length
  if n=0 then none
  else s.activeSchedule.producers[(t-(s.scheduledShuffleSlot+1)).toNat%n]?

/-- `calc_dpos_last_irreversible`: sort the last implied irreversible
blocks by value and take the one a third of the way up. -/
def calcDposLastIrreversible (s : BlockHeaderState) : UInt32 :=
  let blocknums := s.producerToLastImpliedIrb.values
  if blocknums.length=0 then 0
  else (orderStat 0 (blocknums.map UInt32.toNat) ((blocknums.length-1)/3)).toUInt32

/-- The time of the next block in `generate_next`: `when` if it is set, and
it must then be later than this block, otherwise the next slot. -/
def nextBlockTime (s : BlockHeaderState) (when : UInt32) : Option UInt32 :=
  if when≠0 then (if when>s.header.timestamp then some when else none)
  else some (s.header.timestamp+1)

/-- `generate_next`: the template of the next block at `when`. -/
def generateNext (s : BlockHeaderState) (when : UInt32) : Option BlockHeaderState := do
  let when ← s.nextBlockTime when
  let prokey ← s.getScheduledProducer when
  let blockNum := s.blockNum+1
  let numActiveProducers := s.activeSchedule.producers.length
  let requiredConfs : UInt32 := (numActiveProducers*2/3).toUInt32+1
  let confirmCount :=
    if s.confirmCount.length < maximumTrackedDposConfirmations then
      s.confirmCount++[requiredConfs.toUInt8]
    else s.confirmCount.tail++[requiredConfs.toUInt8]
  let header : BlockHeader :=
    {timestamp := when, producer := prokey.producerName, scheduleVersion := s.activeSchedule.version}
  let result : BlockHeaderState :=
    { blockNum := blockNum
      header := header
      dposProposedIrreversibleBlocknum := s.dposProposedIrreversibleBlocknum
      bftIrreversibleBlocknum := s.bftIrreversibleBlocknum
      pendingScheduleLibNum := s.pendingScheduleLibNum
      scheduledShuffleSlot := s.scheduledShuffleSlot
      pendingSchedule := s.pendingSchedule
      activeSchedule := s.activeSchedule
      producerToLastProduced := s.producerToLastProduced.assign prokey.producerName blockNum
      producerToLastImpliedIrb :=
        s.producerToLastImpliedIrb.assign prokey.producerName s.dposProposedIrreversibleBlocknum
      blockSigningKey := prokey.blockSigningKey
      confirmCount := confirmCount }
  pure {result with dposIrreversibleBlocknum := result.calcDposLastIrreversible}

/-- The loop of `set_confirmed`, from the newest block down: `older` are the
counts not visited yet, newest first, `visited` the decremented ones, oldest
first. The first count that reaches zero makes its block the proposed
irreversible block and drops it and everything older. -/
def confirmLoop (blockNum : UInt32) : List UInt8 → List UInt8 → ℕ → List UInt8 × Option UInt32
  | [],visited,_ => (visited,none)
  | older,visited,0 => (older.reverse++visited,none)
  | c::older,visited,blocks+1 =>
    if c-1=0 then (visited,some (blockNum-visited.length.toUInt32))
    else confirmLoop blockNum older ((c-1)::visited) blocks

/-- `set_confirmed`: the header confirms `numPrevBlocks` blocks before it and
itself. -/
def setConfirmed (s : BlockHeaderState) (numPrevBlocks : UInt16) : BlockHeaderState :=
  let s := {s with header := {s.header with confirmed := numPrevBlocks}}
  match confirmLoop s.blockNum s.confirmCount.reverse [] (numPrevBlocks.toNat+1) with
  | (cc,some p) => {s with confirmCount := cc, dposProposedIrreversibleBlocknum := p}
  | (cc,none) => {s with confirmCount := cc}

/-- The producer maps rebuilt for a promoted schedule: producers that stay
keep their entry, new ones start at the last irreversible block. -/
def rebuildProducerMap (old : Map AccountName UInt32) (producers : List ProducerKey) (lib : UInt32) :
    Map AccountName UInt32 :=
  producers.foldl (fun m pro => m.assign pro.producerName ((old.find? pro.producerName).getD lib)) .empty

/-- `update_active_schedule`, with whether the pending schedule was promoted.
The moved-from pending schedule keeps its version and no producers. -/
def updateActiveSchedule (s : BlockHeaderState) : Option (BlockHeaderState × Bool) :=
  let when := s.header.timestamp
  if s.pendingSchedule.producers.length≠0 ∧ s.dposIrreversibleBlocknum ≥ s.pendingScheduleLibNum then
    let producers := shuffle s.pendingSchedule.producers when
    let lastProduced := rebuildProducerMap s.producerToLastProduced producers s.dposIrreversibleBlocknum
    some ({s with
        activeSchedule := {s.pendingSchedule with producers := producers}
        pendingSchedule := {s.pendingSchedule with producers := []}
        scheduledShuffleSlot := when
        producerToLastProduced := lastProduced.assign s.header.producer s.blockNum
        producerToLastImpliedIrb :=
          rebuildProducerMap s.producerToLastImpliedIrb producers s.dposIrreversibleBlocknum},
      true)
  else
    let prodNum : UInt32 := s.activeSchedule.producers.length.toUInt32
    if prodNum=0 then none
    else if ¬when>s.scheduledShuffleSlot then none
    else
      let nextScheduledShuffleSlot := s.scheduledShuffleSlot+prodNum
      if when ≥ nextScheduledShuffleSlot then
        let displ := ((when-nextScheduledShuffleSlot)%prodNum).toNat
        let producers := s.activeSchedule.producers
        some ({s with
            activeSchedule := {s.activeSchedule with
              producers := producers.take displ++shuffle (producers.drop displ) nextScheduledShuffleSlot}
            scheduledShuffleSlot := when-displ.toUInt32},
          false)
      else some (s,false)

/-- `set_new_producers`. -/
def setNewProducers (s : BlockHeaderState) (pending : ProducerSchedule) : Option BlockHeaderState := do
  guard (pending.version=s.activeSchedule.version+1)
  guard (s.pendingSchedule.producers.length=0)
  pure {s with
    header := {s.header with newProducers := some pending}
    pendingSchedule := pending
    pendingScheduleLibNum := s.blockNum}

/-- `next`, with `was_pending_promoted`. Each `EOS_ASSERT` is a `guard`; a
producer may not confirm a block at or below the last one it produced,
`block_num - confirmed` taken in `uint32_t`. -/
def nextPromoted (s : BlockHeaderState) (h : BlockHeader) : Option (BlockHeaderState × Bool) := do
  guard (h.timestamp≠0)
  guard (h.timestamp>s.header.timestamp)
  let result ← s.generateNext h.timestamp
  guard (result.header.producer=h.producer)
  guard (result.header.scheduleVersion=h.scheduleVersion)
  guard ((s.producerToLastProduced.find? h.producer).all fun last => last < result.blockNum-h.confirmed.toUInt32)
  let updated ← (result.setConfirmed h.confirmed).updateActiveSchedule
  match h.newProducers with
  | some pending =>
    guard (updated.2=false)
    let result ← updated.1.setNewProducers pending
    pure (result,updated.2)
  | none => pure updated

/-- `next`: the state of the block with header `h`, if it is valid. -/
def next (s : BlockHeaderState) (h : BlockHeader) : Option BlockHeaderState :=
  (s.nextPromoted h).map (·.1)

end BlockHeaderState

/-- The genesis state of `controller_impl::initialize_fork_db`: block 1,
the system account as the only producer of the active and the pending
schedule. -/
def genesis (initialTimestamp : UInt32) (initialKey : ℕ) : BlockHeaderState :=
  let initialSchedule : ProducerSchedule :=
    {version := 0, producers := [{producerName := systemAccountName, blockSigningKey := initialKey}]}
  {blockNum := 1
   header := {timestamp := initialTimestamp}
   activeSchedule := initialSchedule
   pendingSchedule := initialSchedule}

end Cyberway.HeaderState
