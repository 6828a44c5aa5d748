import Cyberway.ChaindbTypedName

/-!
# Database names

MongoDB databases, collections and indexes are named after the chain's
64-bit names by `db_name_to_string`, a copy of `name::to_string` that writes
`'_'` where a name has a dot. The driver reads the names back from the
server's listings with `db_string_to_name` (`db_tables`, `get_db_indexes`)
and drops what does not parse. Unlike `string_to_name`, `db_string_to_name`
throws on a character outside its alphabet and on a string longer than
thirteen characters.

Both directions are the account-name codec seen through the exchange of
`'.'` and `'_'` (`swapPad`): `db_name_to_string` is `to_string` with the
two exchanged, and on strings over its alphabet `db_string_to_name` is
`string_to_name` of the exchanged string. The round trips then come from
those of the name codec: every value is read back, and every string in
normal form is printed back.
-/

namespace Cyberway.ChaindbNames

open BigEndian ChaindbTypedName

/-- The charmap of `db_name_to_string`. -/
def dbCharmap : List Char := "_12345abcdefghijklmnopqrstuvwxyz".toList

/-- `charmap[x]`; the index is always a masked symbol below 32. -/
def dbCharmapAt (x : UInt64) : Char := dbCharmap.getD x.toNat '_'

/-- The loop of `db_name_to_string` over `str[11]` down to `str[0]`: the
last of `i` characters is `charmap[tmp & 0x1f]`, the others come from
`tmp >> 5`. -/
def dbNameChars : ℕ → UInt64 → List Char
  | 0,_ => []
  | i+1,tmp => dbNameChars i (tmp >>> 5)++[dbCharmapAt (tmp &&& 0x1f)]

/-- `db_name_to_string`: the thirteenth character from the low four bits,
the twelve before it from the rest, trailing `'_'` trimmed. -/
def dbNameToString (value : UInt64) : List Char :=
  (dbNameChars 12 (value >>> 4)++[dbCharmapAt (value &&& 0x0f)]).rdropWhile (· == '_')

/-- `db_char_to_symbol`: `a`-`z` are 6 to 31, `1`-`5` are 1 to 5, `'_'` is
0, and any other character throws. -/
def dbCharToSymbol (c : Char) : Except String UInt64 :=
  if 'a' ≤ c ∧ c ≤ 'z' then .ok (c.toNat - 'a'.toNat+6).toUInt64
  else if '1' ≤ c ∧ c ≤ '5' then .ok (c.toNat - '1'.toNat+1).toUInt64
  else if '_'=c then .ok 0
  else .error "Name contains bad character '${c}'"

/-- `strnlen(str, n)`: the length of the C string, at most `n`. -/
def strnlen (str : List Char) (n : ℕ) : ℕ := min (str.takeWhile (· ≠ nulChar)).length n

/-- The loop of `db_string_to_name` from `str[i]` on: while `str[i]` is not
the end of the string and `i < 12`, the symbol of `str[i]` goes into the
five bits below the first `5 * i`. -/
def dbStringToNameLoop : List Char → ℕ → UInt64 → Except String UInt64
  | [],_,value => .ok value
  | c :: cs,i,value =>
    if c=nulChar ∨ 12 ≤ i then .ok value
    else do
      let sym ← dbCharToSymbol c
      dbStringToNameLoop cs (i+1) (value ||| ((sym &&& 0x1f) <<< (64-5*(i+1)).toUInt64))

/-- `db_string_to_name`: at most thirteen characters; a thirteenth fills the
low four bits. -/
def dbStringToName (str : List Char) : Except String UInt64 :=
  let len := strnlen str 14
  if len ≤ 13 then do
    let value ← dbStringToNameLoop str 0 0
    if len=13 then
      let sym ← dbCharToSymbol (str.getD 12 nulChar)
      pure (value ||| (sym &&& 0x0F))
    else pure value
  else .error "Name is longer than 13 characters (${name}...)"

/-- `names::unknown`. -/
def unknownName : List Char := "_UNKNOWN_".toList

/-- `get_table_name` and `get_index_name` of a name: its database name, and
`names::unknown` for the empty name. -/
def nameOrUnknown (value : UInt64) : List Char := if value=0 then unknownName else dbNameToString value

/-- `get_table_name(table_name)`. -/
def getTableName (table : UInt64) : List Char := nameOrUnknown table

/-- `get_index_name(index_name)`. -/
def getIndexName (index : UInt64) : List Char := nameOrUnknown index

/-- `_detail::mongodb_system`: the prefix of MongoDB's own collections. -/
def mongodbSystem : List Char := "system.".toList

/-- The tables `db_tables` finds among a database's collection names, in
order, and the collections it drops: a collection of MongoDB's own is
skipped, one whose name `db_string_to_name` refuses is dropped. -/
def dbTables : List (List Char) → List UInt64 × List (List Char)
  | [] => ([],[])
  | tname :: rest =>
    let (tables,dropped) := dbTables rest
    if mongodbSystem.isPrefixOf tname then (tables,dropped)
    else match dbStringToName tname with
      | .ok name => (name :: tables,dropped)
      | .error _ => (tables,tname :: dropped)

/-! ## The exchange of the padding characters -/

/-- The exchange of `'.'` and `'_'`, the only characters in which the two
charmaps differ. -/
def swapPad (c : Char) : Char := if c = '.' then '_' else if c = '_' then '.' else c

@[simp] theorem swapPad_swapPad (c : Char) : swapPad (swapPad c)=c := by
  unfold swapPad
  by_cases h1 : c = '.'
  · subst h1
    decide
  · by_cases h2 : c = '_'
    · subst h2
      decide
    · simp [h1,h2]

theorem map_swapPad_swapPad (s : List Char) : (s.map swapPad).map swapPad=s := by
  rw [List.map_map]
  exact (List.map_congr_left fun c _ => swapPad_swapPad c).trans (List.map_id s)

theorem swapPad_eq_underscore (c : Char) : (swapPad c == '_')=(c == '.') := by
  unfold swapPad
  by_cases h1 : c = '.'
  · subst h1
    decide
  · by_cases h2 : c = '_'
    · subst h2
      decide
    · simp [h1,h2]

theorem swapPad_nul : swapPad nulChar=nulChar := by
  decide

theorem dbCharmap_eq : dbCharmap=charmap.map swapPad := by
  decide

theorem charmap_eq : charmap=dbCharmap.map swapPad := by
  rw [dbCharmap_eq,map_swapPad_swapPad]

/-- The two charmaps agree up to the exchange, also past their end. -/
theorem dbCharmapAt_eq (x : UInt64) : dbCharmapAt x=swapPad (charmapAt x) := by
  have hdb : ∀ g : Fin 32,dbCharmap.getD g '_'=swapPad (charmap.getD g '.') := by
    decide
  by_cases hx : x.toNat < 32
  · exact hdb ⟨x.toNat,hx⟩
  · rw [dbCharmapAt,charmapAt,List.getD_eq_default _ _ (by rw [dbCharmap_eq,List.length_map,length_charmap]; omega),
      List.getD_eq_default _ _ (by rw [length_charmap]; omega)]
    decide

/-- A symbol the database charmap spells is read as the name charmap's. -/
theorem dbCharToSymbol_eq {c : Char} (hc : c ∈ dbCharmap) : dbCharToSymbol c=.ok (charToSymbol (swapPad c)) := by
  have hsym : ∀ g : Fin 32,dbCharToSymbol (dbCharmap.getD g '_')=.ok (charToSymbol (swapPad (dbCharmap.getD g '_'))) := by
    decide
  obtain ⟨g,hg,rfl⟩ := List.mem_iff_getElem.mp hc
  have hg' : g < 32 := by rwa [dbCharmap_eq,List.length_map,length_charmap] at hg
  rw [← List.getD_eq_getElem _ '_' hg]
  exact hsym ⟨g,hg'⟩

theorem ne_nul_of_mem_dbCharmap {c : Char} (hc : c ∈ dbCharmap) : c≠nulChar := fun h =>
  nul_not_mem_charmap (by rw [charmap_eq,← swapPad_nul,← h]; exact List.mem_map_of_mem hc)

/-! ## Printing -/

theorem dbNameChars_eq (k : ℕ) : ∀ tmp : UInt64,dbNameChars k tmp=(nameChars k tmp).map swapPad := by
  induction k with
  | zero => intro tmp; rfl
  | succ k ih =>
    intro tmp
    rw [dbNameChars,nameChars,ih,dbCharmapAt_eq,List.map_append,List.map_singleton]

/-- Trimming after a map trims by the pulled-back test. -/
theorem rdropWhile_map {α β : Type} (f : α → β) (p : β → Bool) (l : List α) :
    (l.map f).rdropWhile p=(l.rdropWhile (p ∘ f)).map f := by
  rw [List.rdropWhile,List.rdropWhile,← List.map_reverse,List.dropWhile_map,List.map_reverse]

/-- `db_name_to_string` is `name::to_string` with `'.'` written `'_'`. -/
theorem dbNameToString_eq (v : UInt64) : dbNameToString v=(nameToString v).map swapPad := by
  have hp : (fun c => c == '_') ∘ swapPad=fun c => c == '.' := funext swapPad_eq_underscore
  rw [dbNameToString,dbNameChars_eq,dbCharmapAt_eq,← List.map_singleton,← List.map_append,rdropWhile_map,hp,
    nameToString]

/-- What `to_string` prints is spelled by the charmap. -/
theorem mem_charmap_of_mem_nameToString {v : UInt64} {c : Char} (hc : c ∈ nameToString v) : c ∈ charmap := by
  rw [nameToString_eq] at hc
  have hmem : ∀ g < 32,charmap.getD g '.' ∈ charmap := fun g hg =>
    List.getD_eq_getElem charmap '.' (length_charmap ▸ hg) ▸ List.getElem_mem _
  rcases List.mem_append.mp ((List.rdropWhile_prefix _ _).subset hc) with hc | hc
  · obtain ⟨g,hg,rfl⟩ := List.mem_map.mp hc
    exact hmem g (lt_of_mem_digits (by norm_num) hg)
  · rw [List.mem_singleton.mp hc]
    exact hmem _ (Nat.mod_lt _ (by norm_num) |>.trans (by norm_num))

/-! ## Reading -/

theorem strnlen_of_length_le {s : List Char} (hs : ∀ c ∈ s,c ∈ dbCharmap) (hlen : s.length ≤ 13) :
    strnlen s 14=s.length := by
  have htake : s.takeWhile (· ≠ nulChar)=s :=
    List.takeWhile_eq_self_iff.mpr fun c hc => decide_eq_true (ne_nul_of_mem_dbCharmap (hs c hc))
  rw [strnlen,htake]
  omega

/-- The loop of `db_string_to_name` over characters of its alphabet packs
what the loop of `string_to_name` packs of the exchanged string. -/
theorem dbStringToNameLoop_eq (cs : List Char) (hcs : ∀ c ∈ cs,c ∈ dbCharmap) :
    ∀ i acc,dbStringToNameLoop cs i acc=.ok (stringToNameLoop (cs.map swapPad) i acc).1 := by
  induction cs with
  | nil => intro i acc; rfl
  | cons c cs ih =>
    intro i acc
    have hc := hcs c List.mem_cons_self
    have hnul : swapPad c≠nulChar := fun h => ne_nul_of_mem_dbCharmap hc (by rw [← swapPad_swapPad c,h,swapPad_nul])
    by_cases h12 : 12 ≤ i
    · rw [dbStringToNameLoop,if_pos (Or.inr h12),List.map_cons,stringToNameLoop,if_pos (Or.inr h12)]
    · rw [dbStringToNameLoop,if_neg (by simp [ne_nul_of_mem_dbCharmap hc,h12]),dbCharToSymbol_eq hc,
        List.map_cons,stringToNameLoop,if_neg (by simp [hnul,h12])]
      exact ih (fun d hd => hcs d (List.mem_cons_of_mem c hd)) (i+1) _

/-- On at most thirteen characters of its alphabet, `db_string_to_name` is
`string_to_name` of the exchanged string: the twelfth-character test of the
one and the length test of the other differ only on a NUL, symbol 0. -/
theorem dbStringToName_eq {s : List Char} (hs : ∀ c ∈ s,c ∈ dbCharmap) (hlen : s.length ≤ 13) :
    dbStringToName s=.ok (stringToName (s.map swapPad)) := by
  have hnul : nulChar ∉ s.map swapPad := fun h => by
    obtain ⟨c,hc,hsw⟩ := List.mem_map.mp h
    exact ne_nul_of_mem_dbCharmap (hs c hc) (by rw [← swapPad_swapPad c,hsw,swapPad_nul])
  have hloop := stringToNameLoop_eq (s.map swapPad) hnul 0 0 (Nat.zero_le 12) (by norm_num)
  rw [show Nat.toUInt64 (0*2^(64-5*0))=0 from rfl,List.length_map] at hloop
  have hget : (s.map swapPad).getD 12 nulChar=swapPad (s.getD 12 nulChar) := by
    rw [← swapPad_nul,List.getD_map,swapPad_nul]
  rw [dbStringToName,strnlen_of_length_le hs hlen,if_pos hlen]
  simp only [dbStringToNameLoop_eq s hs,bind,Except.bind,stringToName,hloop,Nat.zero_add]
  by_cases h13 : s.length=13
  · have hc : s.getD 12 nulChar ∈ dbCharmap := by
      rw [List.getD_eq_getElem _ _ (by omega)]
      exact hs _ (List.getElem_mem _)
    rw [if_pos h13,if_pos (by omega),dbCharToSymbol_eq hc,hget]
    rfl
  · rw [if_neg h13]
    by_cases h12 : s.length=12
    · -- `string_to_name` reads the terminating NUL as symbol 0
      rw [if_pos (by omega),hget,List.getD_eq_default _ _ (by omega),swapPad_nul,
        show charToSymbol nulChar &&& 0x0F=0 by decide,UInt64.or_zero]
      rfl
    · rw [if_neg (by omega)]
      rfl

/-! ## Round trips -/

theorem mem_dbCharmap_of_mem_dbNameToString {v : UInt64} {c : Char} (hc : c ∈ dbNameToString v) :
    c ∈ dbCharmap := by
  rw [dbNameToString_eq] at hc
  obtain ⟨d,hd,rfl⟩ := List.mem_map.mp hc
  rw [dbCharmap_eq]
  exact List.mem_map_of_mem (mem_charmap_of_mem_nameToString hd)

/-- What `db_name_to_string` prints is read back by `db_string_to_name`. -/
theorem dbStringToName_dbNameToString (v : UInt64) : dbStringToName (dbNameToString v)=.ok v := by
  have hlen : (dbNameToString v).length ≤ 13 := by
    rw [dbNameToString_eq,List.length_map]
    exact length_nameToString_le v
  rw [dbStringToName_eq (fun _ => mem_dbCharmap_of_mem_dbNameToString) hlen,dbNameToString_eq,map_swapPad_swapPad,
    stringToName_nameToString]

/-- A string in the normal form of database names is printed back as
itself. -/
theorem dbNameToString_dbStringToName {s : List Char} (hs : ∀ c ∈ s,c ∈ dbCharmap) (hlen : s.length ≤ 13)
    (hlast : s.getLast?≠some '_') (h13 : ∀ c,s[12]?=some c → c ∈ dbCharmap.take 16) :
    (dbStringToName s).map dbNameToString=.ok s := by
  have ht : ∀ c ∈ s.map swapPad,c ∈ charmap := by
    intro c hc
    obtain ⟨d,hd,rfl⟩ := List.mem_map.mp hc
    rw [charmap_eq]
    exact List.mem_map_of_mem (hs d hd)
  have htlast : (s.map swapPad).getLast?≠some '.' := by
    rw [List.getLast?_map]
    intro h
    obtain ⟨c,hc,hsw⟩ := Option.map_eq_some_iff.mp h
    exact hlast (by rw [hc,← swapPad_swapPad c,hsw]; rfl)
  have ht13 : ∀ c,(s.map swapPad)[12]?=some c → c ∈ charmap.take 16 := by
    intro c hc
    rw [List.getElem?_map] at hc
    obtain ⟨d,hd,rfl⟩ := Option.map_eq_some_iff.mp hc
    rw [charmap_eq,← List.map_take]
    exact List.mem_map_of_mem (h13 d hd)
  rw [dbStringToName_eq hs hlen]
  show Except.ok (dbNameToString _)=_
  rw [dbNameToString_eq,nameToString_stringToName ht (by rwa [List.length_map]) htlast ht13,map_swapPad_swapPad]

/-- A fact about the characters up to `'z'` is one about 123 numbered ones. -/
theorem of_le_z {p : Char → Prop} (h : ∀ n : Fin 123,p (Char.ofNat n)) {c : Char} (hc : c ≤ 'z') : p c := by
  have hlt : c.toNat < 123 := Nat.lt_succ_of_le (UInt32.le_iff_toNat_le.mp (Char.le_def.mp hc))
  rw [← Char.ofNat_toNat c]
  exact h ⟨c.toNat,hlt⟩

/-- `'_'`, `1`-`5` and `a`-`z` are the characters of the charmap. -/
theorem mem_dbCharmap_of {c : Char} (hc : c = '_' ∨ ('1' ≤ c ∧ c ≤ '5') ∨ ('a' ≤ c ∧ c ≤ 'z')) : c ∈ dbCharmap := by
  have hz : c ≤ 'z' := by
    rcases hc with rfl | ⟨-,h⟩ | ⟨-,h⟩
    · decide
    · exact le_trans h (by decide)
    · exact h
  exact of_le_z (p := fun c => (c = '_' ∨ ('1' ≤ c ∧ c ≤ '5') ∨ ('a' ≤ c ∧ c ≤ 'z')) → c ∈ dbCharmap)
    (by decide) hz hc

/-- `'_'`, `1`-`5` and `a`-`j` are the first sixteen characters of the
charmap, those with a four-bit symbol. -/
theorem mem_dbCharmap_take_of {c : Char} (hc : c = '_' ∨ ('1' ≤ c ∧ c ≤ '5') ∨ ('a' ≤ c ∧ c ≤ 'j')) :
    c ∈ dbCharmap.take 16 := by
  have hz : c ≤ 'z' := by
    rcases hc with rfl | ⟨-,h⟩ | ⟨-,h⟩
    · decide
    · exact le_trans h (by decide)
    · exact le_trans h (by decide)
  exact of_le_z (p := fun c => (c = '_' ∨ ('1' ≤ c ∧ c ≤ '5') ∨ ('a' ≤ c ∧ c ≤ 'j')) → c ∈ dbCharmap.take 16)
    (by decide) hz hc

/-- Database names round-trip: every value is read back from its name, so
`db_name_to_string` is injective, and every string in normal form (at most
thirteen characters of the alphabet, no trailing `'_'`, a thirteenth
character with a four-bit symbol) is read without a throw and printed back. -/
theorem db_name_round_trip :
    (∀ v : UInt64,dbStringToName (dbNameToString v)=.ok v) ∧ Function.Injective dbNameToString ∧
      ∀ s : List Char,s.length ≤ 13 → (∀ c ∈ s,c = '_' ∨ ('1' ≤ c ∧ c ≤ '5') ∨ ('a' ≤ c ∧ c ≤ 'z')) →
        s.getLast?≠some '_' → (∀ c,s[12]?=some c → c = '_' ∨ ('1' ≤ c ∧ c ≤ '5') ∨ ('a' ≤ c ∧ c ≤ 'j')) →
        (dbStringToName s).map dbNameToString=.ok s := by
  refine ⟨dbStringToName_dbNameToString,fun v w h => ?_,fun s hlen hs hlast h13 => ?_⟩
  · apply Except.ok.inj
    rw [← dbStringToName_dbNameToString v,h,dbStringToName_dbNameToString]
  · exact dbNameToString_dbStringToName (fun c hc => mem_dbCharmap_of (hs c hc)) hlen hlast
      fun c hc => mem_dbCharmap_take_of (h13 c hc)

theorem eosio_token_db_name :
    (dbStringToName ['e','o','s','i','o','_','t','o','k','e','n']).map dbNameToString=
      .ok ['e','o','s','i','o','_','t','o','k','e','n'] :=
  db_name_round_trip.2.2 _ (by decide) (by simp) (by decide) fun c hc => by simp at hc

/-! ## The driver's listings -/

/-- A printed name never starts like MongoDB's own collections, whose
prefix has a dot. -/
theorem mongodbSystem_isPrefixOf_eq_false (v : UInt64) : mongodbSystem.isPrefixOf (dbNameToString v)=false := by
  rw [Bool.eq_false_iff]
  intro h
  have hdot : '.' ∈ dbNameToString v := (List.isPrefixOf_iff_prefix.mp h).subset (by decide)
  exact absurd (mem_dbCharmap_of_mem_dbNameToString hdot) (by decide)

/-- `db_tables` finds every table the driver created under the name it was
created with, in order, and drops none of them. -/
theorem dbTables_getTableName (ts : List UInt64) (hts : ∀ t ∈ ts,t≠0) : dbTables (ts.map getTableName)=(ts,[]) := by
  induction ts with
  | nil => rfl
  | cons t ts ih =>
    have ht := hts t List.mem_cons_self
    have hname : getTableName t=dbNameToString t := if_neg ht
    rw [List.map_cons,dbTables,ih fun u hu => hts u (List.mem_cons_of_mem t hu),hname,mongodbSystem_isPrefixOf_eq_false]
    simp only [Bool.false_eq_true,if_false,dbStringToName_dbNameToString]

theorem two_tables_listed :
    (∀ t ∈ ([1,2] : List UInt64),t≠0) ∧ dbTables (([1,2] : List UInt64).map getTableName)=([1,2],[]) :=
  have hts : ∀ t ∈ ([1,2] : List UInt64),t≠0 := by simp
  ⟨hts,dbTables_getTableName [1,2] hts⟩

end Cyberway.ChaindbNames
