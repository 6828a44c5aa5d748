import Cyberway.MerkleTree
import Cyberway.BitSmear

/-!
# The Merkle roots of a chain

`merkle` computes the root of a list of digests level by level, in place,
doubling the last digest of an odd level. `incremental_merkle` keeps, for
the digests appended so far, the roots of the complete subtrees that later
appends still need, followed by the current root; `append` walks up from
the new leaf with the depth that `next_power_of_2` and `clz_power_2`
compute with bit tricks. Both hash a pair after marking its halves left and
right (`make_canonical_pair`).

The incremental root is the batch root of the digests appended so far, so
the block header state's `blockroot_merkle` is the Merkle root of all the
block ids before it.
-/

namespace Cyberway.Merkle

open MerkleTree

/-! ## Digests -/

/-- `fc::sha256`, the `digest_type`: its four 64-bit words `_hash`. -/
structure Digest where
  hash0 : UInt64
  hash1 : UInt64
  hash2 : UInt64
  hash3 : UInt64
  deriving DecidableEq, Repr, Inhabited

/-- `make_canonical_left`: bit 7 of the first word cleared. -/
def makeCanonicalLeft (val : Digest) : Digest := {val with hash0 := val.hash0 &&& 0xFFFFFFFFFFFFFF7F}

/-- `make_canonical_right`: bit 7 of the first word set. -/
def makeCanonicalRight (val : Digest) : Digest := {val with hash0 := val.hash0 ||| 0x0000000000000080}

/-- `is_canonical_left`. -/
def isCanonicalLeft (val : Digest) : Bool := val.hash0 &&& 0x0000000000000080 == 0

/-- `is_canonical_right`. -/
def isCanonicalRight (val : Digest) : Bool := val.hash0 &&& 0x0000000000000080 != 0

/-- `digest_type::hash(make_canonical_pair(l, r))`, for `sha` the hash of a
packed pair of digests. -/
def hashCanonicalPair (sha : Digest → Digest → Digest) (l r : Digest) : Digest :=
  sha (makeCanonicalLeft l) (makeCanonicalRight r)

/-! ## `merkle` -/

section Batch

variable {D : Type} [Inhabited D] (hashPair : D → D → D)

/-- `ids[i] = hash(ids[2i], ids[2i+1])`. -/
def hashInto (ids : List D) (i : ℕ) : List D := ids.set i (hashPair ids[2*i]! ids[2*i+1]!)

/-- One pass of the `while` loop of `merkle`: an odd last id doubled
(`ids.push_back(ids.back())`), each pair hashed in place into the first
half, and the ids cut to that half. -/
def merklePass (ids : List D) : List D :=
  let ids := if ids.length % 2=1 then ids++[ids.getLast!] else ids
  ((List.range (ids.length/2)).foldl (hashInto hashPair) ids).take (ids.length/2)

/-- Hashing in place from the front reads each pair before it is overwritten. -/
theorem foldl_hashInto {P : List D} (hP : P.length % 2=0) :
    ∀ k,k ≤ P.length/2 → (List.range k).foldl (hashInto hashPair) P=(up hashPair P).take k++P.drop k
  | 0,_ => by simp
  | k+1,hk => by
    have hlen : (up hashPair P).length=P.length/2 := by rw [length_up]; omega
    have htake : ((up hashPair P).take k).length=k := by rw [List.length_take]; omega
    have hpair : (up hashPair P)[k]?=some (hashPair P[2*k]! P[2*k+1]!) := by
      rw [getElem?_up,List.getElem?_eq_getElem (by omega),List.getElem?_eq_getElem (by omega)]
      simp [List.getElem!_eq_getElem?_getD,List.getElem?_eq_getElem (show 2*k < P.length by omega),
        List.getElem?_eq_getElem (show 2*k+1 < P.length by omega)]
    rw [List.range_succ,List.foldl_append,foldl_hashInto hP k (by omega),List.foldl_cons,List.foldl_nil,hashInto]
    -- the pair `2k, 2k+1` still lies in the untouched part
    have hread : ∀ i,k ≤ i → ((up hashPair P).take k++P.drop k)[i]! = P[i]! := by
      intro i hi
      rw [List.getElem!_eq_getElem?_getD,List.getElem!_eq_getElem?_getD,List.getElem?_append_right (by omega),
        List.getElem?_drop,htake,Nat.add_sub_cancel' hi]
    rw [hread (2*k) (by omega),hread (2*k+1) (by omega),List.set_append_right _ _ (by omega),htake,Nat.sub_self,
      List.take_add_one,hpair,List.drop_eq_getElem_cons (show k < P.length by omega),List.set_cons_zero,
      Option.toList_some,List.append_assoc,List.singleton_append]

/-- An odd level with its last node doubled pairs as the level itself. -/
theorem up_append_getLast : ∀ (ids : List D),ids.length % 2=1 → up hashPair (ids++[ids.getLast!])=up hashPair ids
  | [],h => by simp at h
  | [_],_ => rfl
  | a :: b :: rest,h => by
    have hrest : rest.length % 2=1 := by simp at h; omega
    have hlast : (a :: b :: rest).getLast! = rest.getLast! := by
      obtain ⟨c,rest',rfl⟩ := List.exists_cons_of_ne_nil (show rest≠[] by rintro rfl; simp at hrest)
      simp [List.getLast!_eq_getLast?_getD]
    rw [hlast,List.cons_append,List.cons_append,up,up,up_append_getLast rest hrest]

/-- The in-place pass computes the level above. -/
theorem merklePass_eq_up (ids : List D) : merklePass hashPair ids=up hashPair ids := by
  unfold merklePass
  split_ifs with hodd <;> dsimp only
  · have hP : (ids++[ids.getLast!]).length % 2=0 := by simp; omega
    rw [foldl_hashInto hashPair hP _ le_rfl,List.take_left' (by rw [List.length_take,length_up]; omega),
      List.take_of_length_le (by rw [length_up]; omega),up_append_getLast hashPair ids hodd]
  · have hP : ids.length % 2=0 := by omega
    rw [foldl_hashInto hashPair hP _ le_rfl,List.take_left' (by rw [List.length_take,length_up]; omega),
      List.take_of_length_le (by rw [length_up]; omega)]

/-- The `while` loop of `merkle`: passes until one id is left. -/
def merkleLoop (ids : List D) : List D :=
  if _h : 1 < ids.length then merkleLoop (merklePass hashPair ids) else ids
termination_by ids.length
decreasing_by
  rw [merklePass_eq_up,length_up]
  omega

/-- `merkle`: the default digest for no ids, else the one the loop leaves. -/
def merkle (ids : List D) : D :=
  if ids.length=0 then default else (merkleLoop hashPair ids).head!

/-- The loop stops at level `clog 2 n` of the `n` ids. -/
theorem merkleLoop_eq_level (ids : List D) (hne : ids≠[]) :
    merkleLoop hashPair ids=level hashPair ids (Nat.clog 2 ids.length) := by
  fun_induction merkleLoop hashPair ids with
  | case1 ids h ih =>
    have hne' : merklePass hashPair ids≠[] := by
      rw [merklePass_eq_up,← List.length_pos_iff,length_up]
      omega
    rw [ih hne',merklePass_eq_up,level_up,length_up,Nat.clog_of_two_le (by norm_num) (show 2 ≤ ids.length by omega),
      show ids.length+2-1=ids.length+1 by omega]
  | case2 ids h =>
    have h1 : ids.length=1 := by
      have := List.length_pos_iff.mpr hne
      omega
    rw [h1,Nat.clog_one_right,level_zero]

/-- The batch root is the node of level `clog 2 n`. -/
theorem merkle_eq_level (ids : List D) (hne : ids≠[]) :
    some (merkle hashPair ids)=(level hashPair ids (Nat.clog 2 ids.length))[0]? := by
  have hlen := length_level_clog hashPair hne
  rw [merkle,if_neg (by simpa using hne),merkleLoop_eq_level hashPair ids hne]
  obtain ⟨r,hr⟩ := List.length_eq_one_iff.mp hlen
  rw [hr]
  rfl

theorem merkle_eq_level_sample :
    [1,2,3]≠[] ∧ some (merkle (fun a b : ℕ => 3*a+b) [1,2,3])=
      (level (fun a b : ℕ => 3*a+b) [1,2,3] (Nat.clog 2 [1,2,3].length))[0]? :=
  ⟨by decide,merkle_eq_level _ [1,2,3] (by decide)⟩

end Batch

/-! ## The depth of the tree -/

/-- `detail::next_power_of_2`: the least power of two at least `value`. -/
def nextPowerOf2 (value : UInt64) : UInt64 :=
  let value := value-1
  let value := value ||| value >>> 1
  let value := value ||| value >>> 2
  let value := value ||| value >>> 4
  let value := value ||| value >>> 8
  let value := value ||| value >>> 16
  let value := value ||| value >>> 32
  value+1

/-- `detail::clz_power_2`: the set bit of a power of two, found in parallel
by masks; for other values the count means nothing. -/
def clzPower2 (value : UInt64) : ℕ :=
  let lz := 64
  let lz := if value≠0 then lz-1 else lz
  let lz := if value &&& 0x00000000FFFFFFFF≠0 then lz-32 else lz
  let lz := if value &&& 0x0000FFFF0000FFFF≠0 then lz-16 else lz
  let lz := if value &&& 0x00FF00FF00FF00FF≠0 then lz-8 else lz
  let lz := if value &&& 0x0F0F0F0F0F0F0F0F≠0 then lz-4 else lz
  let lz := if value &&& 0x3333333333333333≠0 then lz-2 else lz
  let lz := if value &&& 0x5555555555555555≠0 then lz-1 else lz
  lz

/-- `detail::calcluate_max_depth`: the levels of the least complete tree
holding `nodeCount` leaves. -/
def calcluateMaxDepth (nodeCount : UInt64) : ℕ :=
  if nodeCount=0 then 0 else clzPower2 (nextPowerOf2 nodeCount)+1

/-- `x |= x >> s` is the smear step on the value. -/
theorem toNat_or_shiftRight (x s : UInt64) (hs : s.toNat < 64) :
    (x ||| x >>> s).toNat=x.toNat ||| x.toNat >>> s.toNat := by
  rw [UInt64.toNat_or,UInt64.toNat_shiftRight,Nat.mod_eq_of_lt hs]

/-- The shifts of `next_power_of_2` smear the bits of `value - 1` in six rounds. -/
theorem toNat_nextPowerOf2 {value : UInt64} (h₁ : 1 ≤ value.toNat) (h₂ : value.toNat ≤ 2^63) :
    (nextPowerOf2 value).toNat=2^Nat.clog 2 value.toNat := by
  have hsub : (value-1).toNat=value.toNat-1 :=
    UInt64.toNat_sub_of_le _ _ (UInt64.le_iff_toNat_le.mpr (by simpa using h₁))
  have hclog : Nat.clog 2 value.toNat ≤ 63 := Nat.clog_le_of_le_pow h₂
  have hpow : 2^Nat.clog 2 value.toNat < 2^64 := Nat.pow_lt_pow_right (by decide) (by omega)
  -- the six rounds are `smear` with the shifts `2 ^ 0, …, 2 ^ 5`
  have hsmear := BitSmear.smear_sub_one_add_one (k := 6) h₁ (by omega)
  simp only [BitSmear.smear,Nat.reducePow] at hsmear
  unfold nextPowerOf2
  dsimp only
  simp only [UInt64.toNat_add,toNat_or_shiftRight _ _ (by decide : (32 : UInt64).toNat < 64),
    toNat_or_shiftRight _ _ (by decide : (16 : UInt64).toNat < 64),toNat_or_shiftRight _ _ (by decide : (8 : UInt64).toNat < 64),
    toNat_or_shiftRight _ _ (by decide : (4 : UInt64).toNat < 64),toNat_or_shiftRight _ _ (by decide : (2 : UInt64).toNat < 64),
    toNat_or_shiftRight _ _ (by decide : (1 : UInt64).toNat < 64),hsub,UInt64.reduceToNat,hsmear]
  exact Nat.mod_eq_of_lt hpow

/-- `clz_power_2` counts the zeros below the bit of a power of two, not
above it: it returns the exponent, which is what `calcluate_max_depth`
needs. -/
theorem clzPower2_two_pow : ∀ c < 64,clzPower2 (UInt64.ofNat (2^c))=c := by
  decide

/-- For `1 ≤ n ≤ 2 ^ 63` leaves, the tree has `clog 2 n + 1` levels. -/
theorem calcluateMaxDepth_eq {nodeCount : UInt64} (h₁ : 1 ≤ nodeCount.toNat) (h₂ : nodeCount.toNat ≤ 2^63) :
    calcluateMaxDepth nodeCount=Nat.clog 2 nodeCount.toNat+1 := by
  have hclog : Nat.clog 2 nodeCount.toNat < 64 := Nat.lt_succ_of_le (Nat.clog_le_of_le_pow h₂)
  have hne : nodeCount≠0 := by
    rintro rfl
    simp at h₁
  have hpow : nextPowerOf2 nodeCount=UInt64.ofNat (2^Nat.clog 2 nodeCount.toNat) := by
    apply UInt64.toNat_inj.mp
    rw [toNat_nextPowerOf2 h₁ h₂,UInt64.toNat_ofNat_of_lt' (Nat.pow_lt_pow_right (by decide) hclog)]
  rw [calcluateMaxDepth,if_neg hne,hpow,clzPower2_two_pow _ hclog]

theorem calcluateMaxDepth_eq_five :
    1 ≤ (5 : UInt64).toNat ∧ (5 : UInt64).toNat ≤ 2^63 ∧ calcluateMaxDepth 5=Nat.clog 2 (5 : UInt64).toNat+1 :=
  ⟨by decide,by decide,calcluateMaxDepth_eq (by decide) (by decide)⟩

theorem and_one_eq_zero_iff (index : UInt64) : index &&& 1=0 ↔ index.toNat % 2=0 := by
  rw [← UInt64.toNat_inj,UInt64.toNat_and,UInt64.toNat_one,Nat.and_one_is_mod,UInt64.toNat_zero]

theorem toNat_shiftRight_one (index : UInt64) : (index >>> 1).toNat=index.toNat/2 := by
  rw [UInt64.toNat_shiftRight,UInt64.toNat_one,Nat.shiftRight_eq_div_pow]

/-! ## `incremental_merkle` -/

/-- `incremental_merkle_impl`: the number of digests appended and the active
nodes. -/
structure IncrementalMerkle (D : Type) where
  nodeCount : UInt64
  activeNodes : List D
  deriving DecidableEq, Repr

/-- The tree of no digests. -/
def IncrementalMerkle.empty {D : Type} : IncrementalMerkle D := ⟨0,[]⟩

section Incremental

variable {D : Type} (hashPair : D → D → D)

/-- The `while` loop of `append`, `currentDepth` levels to go: the top of
the collapsed tree and the new active nodes, or `none` where it would read
past the old active nodes. -/
def appendLoop : (currentDepth : ℕ) → (index : UInt64) → (top : D) → (partialNode : Bool) →
    (activeIter : List D) → (updatedActiveNodes : List D) → Option (D × List D)
  | 0,_,top,_,_,updatedActiveNodes => some (top,updatedActiveNodes)
  | currentDepth+1,index,top,partialNode,activeIter,updatedActiveNodes =>
    if index &&& 1=0 then
      -- a "left" value and an implied "right": recorded only while fully realized
      appendLoop currentDepth (index >>> 1) (hashPair top top) true activeIter
        (if partialNode then updatedActiveNodes else updatedActiveNodes++[top])
    else
      -- a "right" value and a fully-realized "left" read from the old active nodes
      match activeIter with
      | [] => none
      | leftValue :: activeIter =>
        appendLoop currentDepth (index >>> 1) (hashPair leftValue top) partialNode activeIter
          (if partialNode then updatedActiveNodes++[leftValue] else updatedActiveNodes)

/-- A left child reads nothing from the old active nodes. -/
theorem appendLoop_of_left {index : UInt64} (h : index &&& 1=0) (r : ℕ) (top : D) (partialNode : Bool)
    (activeIter updatedActiveNodes : List D) :
    appendLoop hashPair (r+1) index top partialNode activeIter updatedActiveNodes=
      appendLoop hashPair r (index >>> 1) (hashPair top top) true activeIter
        (if partialNode then updatedActiveNodes else updatedActiveNodes++[top]) := by
  cases activeIter <;> rw [appendLoop,if_pos h]

/-- `append`: the tree with `digest` added, and the new root it returns. -/
def IncrementalMerkle.append (m : IncrementalMerkle D) (digest : D) : Option (IncrementalMerkle D × D) :=
  let maxDepth := calcluateMaxDepth (m.nodeCount+1)
  match appendLoop hashPair (maxDepth-1) m.nodeCount digest false m.activeNodes [] with
  | none => none
  | some (top,updatedActiveNodes) => some (⟨m.nodeCount+1,updatedActiveNodes++[top]⟩,top)

/-- `get_root`: the last active node, the default digest for no nodes. -/
def IncrementalMerkle.getRoot [Inhabited D] (m : IncrementalMerkle D) : Option D :=
  if m.nodeCount > 0 then m.activeNodes.getLast? else some default

/-- The tree of `digests` appended in order to the empty tree. -/
def appendAll (digests : List D) : Option (IncrementalMerkle D) :=
  digests.foldlM (fun m digest => (m.append hashPair digest).map Prod.fst) IncrementalMerkle.empty

-- the second append drops its left neighbour; the third keeps it below a partial node
example : appendAll (fun a b : ℕ => 3*a+b) [1,2,3]=some ⟨3,[3,5,27]⟩ := by decide

/-! ### The loop invariant -/

/-- The state of `append`'s loop after `j` levels, adding leaf `d` after the
leaves `L`: `index` is the new leaf's index shifted `j` times, `top` the
node above it at level `j`, `partialNode` whether that node still has
implied leaves, and the new active nodes so far the left neighbours of the
next leaf below level `j`. -/
structure LoopInv (L : List D) (d : D) (j : ℕ) (index : UInt64) (top : D) (partialNode : Bool)
    (updated : List D) : Prop where
  index_eq : index.toNat=L.length/2^j
  top_eq : (level hashPair (L++[d]) j)[L.length/2^j]?=some top
  partial_iff : partialNode=true ↔ L.length % 2^j≠2^j-1
  updated_eq : updated=lefts hashPair (L++[d]) (L.length+1) 0 j

variable {hashPair}

theorem LoopInv.start {L : List D} {nodeCount : UInt64} (h : nodeCount.toNat=L.length) (d : D) :
    LoopInv hashPair L d 0 nodeCount d false [] where
  index_eq := by simpa using h
  top_eq := by simp
  partial_iff := by simp [Nat.mod_one]
  updated_eq := by simp

section Step

variable {L : List D} {d : D} {j : ℕ} {index : UInt64} {top : D} {partialNode : Bool} {updated : List D}

theorem LoopInv.index_shift (h : LoopInv hashPair L d j index top partialNode updated) :
    (index >>> 1).toNat=L.length/2^(j+1) := by
  rw [toNat_shiftRight_one,h.index_eq,div_two_pow_succ]

/-- A left child: the node hashed with itself, recorded while it is complete. -/
theorem LoopInv.even (h : LoopInv hashPair L d j index top partialNode updated) (he : L.length/2^j % 2=0) :
    LoopInv hashPair L d (j+1) (index >>> 1) (hashPair top top) true
      (if partialNode then updated else updated++[top]) where
  index_eq := h.index_shift
  top_eq := getElem?_level_succ_of_even hashPair d he h.top_eq
  partial_iff := by simp [mod_two_pow_succ_eq_iff,he]
  updated_eq := by
    have hbit : L.length.testBit j=false := by
      rw [Nat.testBit_eq_decide_div_mod_eq,he]
      rfl
    rw [lefts_succ hashPair _ _ (Nat.zero_le j),← h.updated_eq]
    by_cases hp : partialNode
    · rw [if_pos hp,leftAt_succ_of_mod_ne hashPair d (h.partial_iff.mp hp),leftAt_of_testBit_false hashPair hbit,
        Option.toList_none,List.append_nil]
    · have hcarry : L.length % 2^j=2^j-1 := by
        by_contra hc
        exact hp (h.partial_iff.mpr hc)
      rw [if_neg hp,leftAt_succ_of_mod_eq hashPair d hcarry,hbit,if_neg Bool.false_ne_true,h.top_eq]
      rfl

/-- A right child: its complete left neighbour read, and kept while the node
above is partial. -/
theorem LoopInv.odd {left : D} (h : LoopInv hashPair L d j index top partialNode updated)
    (hleft : leftAt hashPair L L.length j=some left) :
    LoopInv hashPair L d (j+1) (index >>> 1) (hashPair left top) partialNode
      (if partialNode then updated++[left] else updated) where
  index_eq := h.index_shift
  top_eq := getElem?_level_succ_of_odd hashPair d hleft h.top_eq
  partial_iff := by
    have hodd := testBit_iff_div_mod.mp (testBit_of_leftAt hashPair hleft)
    rw [h.partial_iff,Ne,Ne,mod_two_pow_succ_eq_iff,and_iff_left hodd]
  updated_eq := by
    rw [lefts_succ hashPair _ _ (Nat.zero_le j),← h.updated_eq]
    by_cases hp : partialNode
    · rw [if_pos hp,leftAt_succ_of_mod_ne hashPair d (h.partial_iff.mp hp),hleft]
      rfl
    · have hcarry : L.length % 2^j=2^j-1 := by
        by_contra hc
        exact hp (h.partial_iff.mpr hc)
      rw [if_neg hp,leftAt_succ_of_mod_eq hashPair d hcarry,testBit_of_leftAt hashPair hleft,if_pos rfl,
        Option.toList_none,List.append_nil]

end Step

/-- The run of the loop from level `j` to `depth`: it reads the left
neighbours of leaf `L.length` at those levels, and leaves the root of the
`L.length + 1` leaves and their left neighbours below `depth`. -/
theorem appendLoop_eq {L : List D} {d : D} {depth : ℕ} (hn : L.length < 2^depth) (rest : List D) :
    ∀ r j index top partialNode updated,j+r=depth → LoopInv hashPair L d j index top partialNode updated →
      ∃ root,(level hashPair (L++[d]) depth)[0]?=some root ∧
        appendLoop hashPair r index top partialNode (lefts hashPair L L.length j depth++rest) updated=
          some (root,lefts hashPair (L++[d]) (L.length+1) 0 depth)
  | 0,j,index,top,partialNode,updated,hj,h => by
    rw [Nat.add_zero] at hj
    subst hj
    refine ⟨top,?_,?_⟩
    · rw [← h.top_eq,Nat.div_eq_of_lt hn]
    · rw [lefts_self,List.nil_append,appendLoop,h.updated_eq]
  | r+1,j,index,top,partialNode,updated,hj,h => by
    rw [lefts_eq_cons hashPair _ _ (show j < depth by omega)]
    -- the parity of the index says whether the node is a left or a right child
    rcases Nat.mod_two_eq_zero_or_one (L.length/2^j) with he | ho
    · have hidx : index &&& 1=0 := (and_one_eq_zero_iff index).mpr (by rw [h.index_eq]; exact he)
      have hbit : L.length.testBit j=false := by
        rw [Nat.testBit_eq_decide_div_mod_eq,he]
        rfl
      rw [leftAt_of_testBit_false hashPair hbit,Option.toList_none,List.nil_append,appendLoop_of_left hashPair hidx]
      exact appendLoop_eq hn rest r (j+1) _ _ _ _ (by omega) (h.even he)
    · have hidx : ¬index &&& 1=0 := by
        rw [and_one_eq_zero_iff,h.index_eq,ho]
        decide
      obtain ⟨left,hleft⟩ := exists_leftAt hashPair (testBit_iff_div_mod.mpr ho)
      rw [hleft,Option.toList_some,List.singleton_append,List.cons_append,appendLoop,if_neg hidx]
      exact appendLoop_eq hn rest r (j+1) _ _ _ _ (by omega) (h.odd hleft)

/-! ### The active nodes -/

variable (hashPair) in
/-- What the active nodes of a tree of the leaves `L` hold: the left
neighbours of the next leaf below the root's level, then the root. -/
structure Represents (L : List D) (m : IncrementalMerkle D) : Prop where
  nodeCount_eq : m.nodeCount.toNat=L.length
  activeNodes_eq : m.activeNodes=
    lefts hashPair L L.length 0 (Nat.clog 2 L.length)++((level hashPair L (Nat.clog 2 L.length))[0]?).toList

theorem represents_empty : Represents hashPair [] IncrementalMerkle.empty where
  nodeCount_eq := rfl
  activeNodes_eq := by simp [IncrementalMerkle.empty]

/-- The old active nodes begin with what `append` reads: the left neighbours
of the new leaf below the level of the new root. -/
theorem Represents.activeNodes_split {L : List D} {m : IncrementalMerkle D} (h : Represents hashPair L m) :
    ∃ rest,m.activeNodes=lefts hashPair L L.length 0 (Nat.clog 2 (L.length+1))++rest := by
  by_cases hpow : L.length=2^Nat.clog 2 L.length
  · refine ⟨[],?_⟩
    rw [h.activeNodes_eq,clog_succ_of_eq_two_pow hpow,lefts_succ hashPair _ _ (Nat.zero_le _),
      lefts_of_eq_two_pow hashPair _ hpow,leftAt_of_eq_two_pow hashPair _ hpow,List.append_nil]
  · exact ⟨_,by rw [h.activeNodes_eq,clog_succ_of_ne_two_pow hpow]⟩

/-- `append` keeps the active nodes of the digests so far with the new one,
and returns their batch root. -/
theorem append_represents [Inhabited D] {L : List D} {m : IncrementalMerkle D} (h : Represents hashPair L m)
    (hlen : L.length < 2^63) (d : D) :
    ∃ m',m.append hashPair d=some (m',merkle hashPair (L++[d])) ∧ Represents hashPair (L++[d]) m' := by
  obtain ⟨rest,hsplit⟩ := h.activeNodes_split
  have hcount : (m.nodeCount+1).toNat=L.length+1 := by
    rw [UInt64.toNat_add,h.nodeCount_eq,UInt64.toNat_one]
    exact Nat.mod_eq_of_lt (by omega)
  have hdepth : calcluateMaxDepth (m.nodeCount+1)-1=Nat.clog 2 (L.length+1) := by
    rw [calcluateMaxDepth_eq (by omega) (by omega),hcount,Nat.add_sub_cancel]
  have hn : L.length < 2^Nat.clog 2 (L.length+1) := Nat.lt_of_succ_le (Nat.le_pow_clog (by decide) _)
  obtain ⟨root,hroot,hloop⟩ := appendLoop_eq hn rest _ 0 _ _ _ _ (Nat.zero_add _) (LoopInv.start h.nodeCount_eq d)
  have hmerkle : merkle hashPair (L++[d])=root := by
    have := merkle_eq_level hashPair (L++[d]) (List.append_ne_nil_of_right_ne_nil L (List.cons_ne_nil d []))
    rw [List.length_append,List.length_singleton,hroot] at this
    exact Option.some_injective _ this
  refine ⟨⟨m.nodeCount+1,lefts hashPair (L++[d]) (L.length+1) 0 (Nat.clog 2 (L.length+1))++[root]⟩,?_,?_,?_⟩
  · simp only [IncrementalMerkle.append,hdepth,hsplit,hloop,hmerkle]
  · rw [hcount,List.length_append,List.length_singleton]
  · rw [List.length_append,List.length_singleton,hroot,Option.toList_some]

theorem append_represents_sample :
    Represents (fun a b : ℕ => 3*a+b) [1,2,3] ⟨3,[3,5,27]⟩ ∧ [1,2,3].length < 2^63 ∧
      ∃ m',IncrementalMerkle.append (fun a b : ℕ => 3*a+b) ⟨3,[3,5,27]⟩ 4=
          some (m',merkle (fun a b : ℕ => 3*a+b) [1,2,3,4]) ∧
        Represents (fun a b : ℕ => 3*a+b) [1,2,3,4] m' := by
  have hrep : Represents (fun a b : ℕ => 3*a+b) [1,2,3] ⟨3,[3,5,27]⟩ := ⟨rfl,by decide⟩
  exact ⟨hrep,by decide,append_represents hrep (by decide) 4⟩

/-- `get_root` of the active nodes of `L` is the batch root of `L`. -/
theorem Represents.getRoot_eq [Inhabited D] {L : List D} {m : IncrementalMerkle D} (h : Represents hashPair L m) :
    m.getRoot=some (merkle hashPair L) := by
  rcases eq_or_ne L [] with rfl | hne
  · have h0 : m.nodeCount=0 := UInt64.toNat_inj.mp h.nodeCount_eq
    rw [IncrementalMerkle.getRoot,h0,if_neg (by decide)]
    rfl
  · have hpos : 0 < m.nodeCount :=
      UInt64.lt_iff_toNat_lt.mpr (by rw [h.nodeCount_eq]; exact List.length_pos_iff.mpr hne)
    rw [IncrementalMerkle.getRoot,if_pos hpos,h.activeNodes_eq,← merkle_eq_level hashPair L hne,Option.toList_some,
      List.getLast?_concat]

variable (hashPair)

theorem appendAll_append_singleton (ds : List D) (d : D) :
    appendAll hashPair (ds++[d])=(appendAll hashPair ds).bind fun m => (m.append hashPair d).map Prod.fst := by
  simp [appendAll,List.foldlM_append]

/-- Appending digests one by one from the empty tree keeps their active nodes. -/
theorem appendAll_represents [Inhabited D] (ds : List D) (h : ds.length ≤ 2^63) :
    ∃ m,appendAll hashPair ds=some m ∧ Represents hashPair ds m := by
  induction ds using List.reverseRecOn with
  | nil => exact ⟨_,rfl,represents_empty⟩
  | append_singleton ds d ih =>
    rw [List.length_append,List.length_singleton] at h
    obtain ⟨m,hm,hrep⟩ := ih (by omega)
    obtain ⟨m',happ,hrep'⟩ := append_represents hrep (by omega) d
    refine ⟨m',?_,hrep'⟩
    rw [appendAll_append_singleton,hm,Option.bind_some,happ]
    rfl

/-- The incremental root of any digests is their batch Merkle root. -/
theorem getRoot_appendAll [Inhabited D] (ds : List D) (h : ds.length ≤ 2^63) :
    ∃ m,appendAll hashPair ds=some m ∧ m.getRoot=some (merkle hashPair ds) := by
  obtain ⟨m,hm,hrep⟩ := appendAll_represents hashPair ds h
  exact ⟨m,hm,hrep.getRoot_eq⟩

theorem getRoot_appendAll_sample :
    [1,2,3].length ≤ 2^63 ∧
      ∃ m,appendAll (fun a b : ℕ => 3*a+b) [1,2,3]=some m ∧ m.getRoot=some (merkle (fun a b : ℕ => 3*a+b) [1,2,3]) :=
  ⟨by decide,getRoot_appendAll _ [1,2,3] (by decide)⟩

end Incremental

end Cyberway.Merkle
