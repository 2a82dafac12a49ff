import LibSeal.Connection.Log
import Mathlib.Data.List.SplitBy

/-!
# What the connection log hands on

A specification of the connection log that knows neither slots nor buffers. The transfers on a
connection, between its creation and its end, fall into **blocks**: transfers of replies before the
first request belong to no block, and a new block starts at every request that directly follows a
reply (`blocks`). Of each block one entry is handed on, with the concatenation of its requests and
the concatenation of its replies (`blockEntry`).

The log does this as long as its integers hold out. Its lengths are `unsigned int`, so in a block
with `2 ^ 32` bytes on one side the size given to `realloc` wraps around, and the copy that follows
runs over the end of the shrunken buffer. And outside the enclave `add_entry_to_list` waits, at its
second call, for a value of `initialized` that the call itself has just changed.

The invariant behind all this is `holding`: after each transfer the slot is the entry of the current
block, and `log_request` says whether its last transfer was a request.
-/

namespace LibSeal

open KeyedMachine

/-- The direction of a transfer. -/
inductive Side where
  | request
  | reply
  deriving DecidableEq

/-- A piece of data on a connection, with the answers of the allocator while it is logged. -/
structure Transfer where
  side : Side
  chunk : Chunk
  answers : Answers

/-- The callback for a transfer. -/
def Transfer.callback (t : Transfer) : Callback :=
  match t.side with
  | .request => .request t.chunk t.answers
  | .reply => .reply t.chunk t.answers

/-- All allocations succeed. -/
def Answers.Succeed (a : Answers) : Prop := a.malloc = true ∧ a.realloc.isSome = true

/-! ### The specification -/

/-- A request directly behind a reply starts a new block. -/
def sameBlock (t u : Transfer) : Bool := !(t.side = .reply && u.side = .request)

/-- The blocks of a connection. -/
def blocks (ts : List Transfer) : List (List Transfer) :=
  (ts.dropWhile fun t ↦ t.side = .reply).splitBy sameBlock

/-- The data transferred in one direction. -/
def sideBytes (side : Side) (b : List Transfer) : Bytes :=
  (b.filter fun t ↦ t.side = side).flatMap fun t ↦ t.chunk.bytes

/-- The entry of a block. A block without a reply has no reply buffer. -/
def blockEntry (b : List Transfer) : LogEntry where
  reqLen := (sideBytes .request b).length
  repLen := (sideBytes .reply b).length
  req := some (sideBytes .request b)
  rep := if b.any fun t ↦ t.side = .reply then some (sideBytes .reply b) else none

/-- Both directions of a block can be counted by an `unsigned int`. -/
def BlockFits (b : List Transfer) : Prop :=
  (sideBytes .request b).length < uintSize ∧ (sideBytes .reply b).length < uintSize

instance (b : List Transfer) : Decidable (BlockFits b) := by unfold BlockFits; infer_instance

/-- The callbacks of a connection from its creation to its end. -/
def lifetime (answers : Answers) (ts : List Transfer) : List Callback :=
  .newConnection answers :: (ts.map Transfer.callback ++ [.freeConnection])

/-! ### Facts about blocks -/

theorem sideBytes_append (side : Side) (b c : List Transfer) :
    sideBytes side (b ++ c) = sideBytes side b ++ sideBytes side c := by
  rw [sideBytes, List.filter_append, List.flatMap_append]
  rfl

theorem sideBytes_singleton_self (t : Transfer) : sideBytes t.side [t] = t.chunk.bytes := by
  simp [sideBytes]

theorem sideBytes_singleton_of_ne {side : Side} {t : Transfer} (h : t.side ≠ side) :
    sideBytes side [t] = [] := by
  simp [sideBytes, h]

/-- A single transfer fits, since its own length is an `unsigned int`. -/
theorem blockFits_singleton (t : Transfer) : BlockFits [t] := by
  have hlt : ∀ side, (sideBytes side [t]).length < uintSize := by
    intro side
    rcases eq_or_ne t.side side with rfl | hne
    · rw [sideBytes_singleton_self]
      exact t.chunk.length_lt
    · rw [sideBytes_singleton_of_ne hne]
      exact Nat.zero_lt_succ _
  exact ⟨hlt _, hlt _⟩

/-- The beginning of a block that fits fits. -/
theorem BlockFits.of_append {b c : List Transfer} (h : BlockFits (b ++ c)) : BlockFits b := by
  rw [BlockFits, sideBytes_append, sideBytes_append, List.length_append, List.length_append] at h
  exact ⟨by omega, by omega⟩

/-- A transfer that belongs to the current block extends it. -/
theorem isChain_concat_of_sameBlock {b : List Transfer} (hb : b ≠ [])
    (hchain : b.IsChain fun t u ↦ sameBlock t u) {t : Transfer}
    (ht : sameBlock (b.getLast hb) t = true) :
    (b ++ [t]).IsChain fun t u ↦ sameBlock t u := by
  refine List.isChain_append.2 ⟨hchain, List.isChain_singleton _, ?_⟩
  intro x hx y hy
  rw [List.getLast?_eq_some_getLast hb, Option.mem_some_iff] at hx
  obtain rfl := Option.mem_some_iff.1 hy
  exact hx ▸ ht

/-- A transfer that does not ends it. -/
theorem splitBy_append_of_not_sameBlock {b : List Transfer} (hb : b ≠ [])
    (hchain : b.IsChain fun t u ↦ sameBlock t u) {t : Transfer}
    (ht : sameBlock (b.getLast hb) t = false) (ts : List Transfer) :
    (b ++ t :: ts).splitBy sameBlock = b :: (t :: ts).splitBy sameBlock := by
  rw [List.splitBy_append_cons, List.splitBy_of_isChain hb hchain]
  · rfl
  · intro x hx
    rw [List.getLast?_eq_some_getLast hb, Option.mem_some_iff] at hx
    exact hx ▸ ht

/-- The current block is the beginning of the first block of everything. -/
theorem exists_splitBy_eq_cons {b : List Transfer} (hb : b ≠ [])
    (hchain : b.IsChain fun t u ↦ sameBlock t u) (ts : List Transfer) :
    ∃ c bs, (b ++ ts).splitBy sameBlock = (b ++ c) :: bs := by
  induction ts generalizing b with
  | nil => exact ⟨[], [], by rw [List.append_nil, List.splitBy_of_isChain hb hchain]⟩
  | cons t ts ih =>
    rcases Bool.eq_false_or_eq_true (sameBlock (b.getLast hb) t) with h | h
    · obtain ⟨c, bs, hsplit⟩ := ih (List.append_ne_nil_of_left_ne_nil hb _)
        (isChain_concat_of_sameBlock hb hchain h)
      rw [List.append_assoc, List.append_assoc] at hsplit
      exact ⟨t :: c, bs, hsplit⟩
    · refine ⟨[], (t :: ts).splitBy sameBlock, ?_⟩
      rw [splitBy_append_of_not_sameBlock hb hchain h, List.append_nil]

/-! ### One transfer -/

/-- Growing a buffer of known length appends to it, as long as the new length can be counted; else
the new buffer is too small for what is copied into it. -/
theorem growBuffer_eq {p : Option Bytes} {len : ℕ} (hlen : (p.getD []).length = len) (data : Chunk)
    {answers : Answers} (h : answers.realloc.isSome = true) :
    growBuffer p len data answers =
      if len + data.bytes.length < uintSize then .ok (some (p.getD [] ++ data.bytes))
      else .error .outOfBounds := by
  obtain ⟨junk, hjunk⟩ := Option.isSome_iff_exists.1 h
  rw [growBuffer, hjunk]
  split_ifs with hfit
  · obtain ⟨block, hrealloc, hcpy⟩ := Memory.memcpy_realloc junk p data.bytes
    rw [hlen] at hrealloc hcpy
    rw [Nat.mod_eq_of_lt hfit, hrealloc]
    simp only [hcpy]
    rfl
  · -- the size has wrapped around
    set size := (len + data.bytes.length) % uintSize with hsize
    obtain ⟨block, hblock⟩ : ∃ block, Memory.realloc (some junk) p size = some block := ⟨_, rfl⟩
    have hshort : block.length = size := Memory.length_realloc junk p size block hblock
    have hlt : size < uintSize := Nat.mod_lt _ (by decide)
    rw [hblock]
    simp only [Memory.memcpy, if_pos (show block.length < len + data.bytes.length by omega)]
    rfl

/-- The connection that is logging the block `b`, with `n` slots still to be ignored. -/
def holding (n : ℕ) (b : List Transfer) : LogConnection where
  logRequest := b.getLast?.any fun t ↦ t.side = .request
  ignoreSlots := n
  slot := some (blockEntry b)

/-- The slot of the current block, when it is taken away. -/
theorem handOver_holding (n : ℕ) (b : List Transfer) :
    handOver (holding n b) =
      ({ holding (n - 1) b with slot := none }, ([b].drop n).map blockEntry) := by
  rcases n with - | n
  · rfl
  · rw [handOver, holding]
    simp only [gt_iff_lt, Nat.zero_lt_succ, if_true, List.drop_succ_cons, List.drop_nil]
    rfl

theorem blockEntry_concat_request {b : List Transfer} {t : Transfer} (ht : t.side = .request) :
    blockEntry (b ++ [t]) = { blockEntry b with
      reqLen := (sideBytes .request b).length + t.chunk.bytes.length
      req := some (sideBytes .request b ++ t.chunk.bytes) } := by
  have hreq : sideBytes .request [t] = t.chunk.bytes := ht ▸ sideBytes_singleton_self t
  have hrep : sideBytes .reply [t] = [] := sideBytes_singleton_of_ne (by rw [ht]; decide)
  simp only [blockEntry, sideBytes_append, hreq, hrep, List.append_nil, List.length_append,
    List.any_append, List.any_cons, List.any_nil, ht]
  simp

theorem blockEntry_concat_reply {b : List Transfer} {t : Transfer} (ht : t.side = .reply) :
    blockEntry (b ++ [t]) = { blockEntry b with
      repLen := (sideBytes .reply b).length + t.chunk.bytes.length
      rep := some (sideBytes .reply b ++ t.chunk.bytes) } := by
  have hreq : sideBytes .request [t] = [] := sideBytes_singleton_of_ne (by rw [ht]; decide)
  have hrep : sideBytes .reply [t] = t.chunk.bytes := ht ▸ sideBytes_singleton_self t
  simp only [blockEntry, sideBytes_append, hreq, hrep, List.append_nil, List.length_append,
    List.any_append, List.any_cons, List.any_nil, ht]
  simp

theorem blockFits_concat {b : List Transfer} (hb : BlockFits b) (t : Transfer) :
    BlockFits (b ++ [t]) ↔ (sideBytes t.side b).length + t.chunk.bytes.length < uintSize := by
  rw [BlockFits, sideBytes_append, sideBytes_append, List.length_append, List.length_append]
  rcases hside : t.side with - | -
  · have hreq : sideBytes .request [t] = t.chunk.bytes := hside ▸ sideBytes_singleton_self t
    have hrep : sideBytes .reply [t] = [] := sideBytes_singleton_of_ne (by rw [hside]; decide)
    rw [hreq, hrep]
    exact and_iff_left hb.2
  · have hreq : sideBytes .request [t] = [] := sideBytes_singleton_of_ne (by rw [hside]; decide)
    have hrep : sideBytes .reply [t] = t.chunk.bytes := hside ▸ sideBytes_singleton_self t
    rw [hreq, hrep]
    exact and_iff_right hb.1

/-- The reply buffer of a block holds its replies, also when it has not been allocated yet. -/
theorem getD_rep_blockEntry (b : List Transfer) :
    (blockEntry b).rep.getD [] = sideBytes .reply b := by
  rw [blockEntry]
  split_ifs with hany
  · rfl
  · have hfilter : (b.filter fun t ↦ t.side = .reply) = [] := by
      refine List.filter_eq_nil_iff.2 fun t ht hside ↦ hany ?_
      exact List.any_eq_true.2 ⟨t, ht, hside⟩
    show [] = sideBytes .reply b
    rw [sideBytes, hfilter]
    rfl

/-- **A transfer in the current block** is added to the slot, if the lengths can take it. -/
theorem callback_of_sameBlock (sgx : Bool) (n : ℕ) {b : List Transfer} (hb : b ≠ [])
    (hfits : BlockFits b) {t : Transfer} (halloc : t.answers.Succeed)
    (ht : sameBlock (b.getLast hb) t = true) :
    callback sgx (some (holding n b)) t.callback =
      if BlockFits (b ++ [t]) then .ok (some (holding n (b ++ [t])), [])
      else .error .outOfBounds := by
  have hlast : (b ++ [t]).getLast? = some t := List.getLast?_concat
  rcases hside : t.side with - | -
  · have hreq : (holding n b).logRequest = true := by
      rw [sameBlock, hside] at ht
      rw [holding, List.getLast?_eq_some_getLast hb]
      rcases hs : (b.getLast hb).side with - | -
      · simp [hs]
      · simp [hs] at ht
    rw [Transfer.callback, hside]
    simp only [callback, logHttpsRequest, hreq, Bool.not_true, Bool.false_eq_true, if_false]
    have hgrow := growBuffer_eq (p := (blockEntry b).req) rfl t.chunk halloc.2
    simp only [holding, blockEntry_concat_request hside, hlast]
    rw [show (blockEntry b).reqLen = ((blockEntry b).req.getD []).length from rfl, hgrow]
    have hcond := blockFits_concat hfits t
    rw [hside] at hcond
    have hlen : ((blockEntry b).req.getD []).length = (sideBytes .request b).length := rfl
    rw [hlen]
    by_cases hfit : (sideBytes .request b).length + t.chunk.bytes.length < uintSize
    · rw [if_pos hfit, if_pos (hcond.2 hfit)]
      simp only [bind, Except.bind, pure, Except.pure, Nat.mod_eq_of_lt hfit]
      simp [hside]
      rfl
    · rw [if_neg hfit, if_neg (fun h ↦ hfit (hcond.1 h))]
      rfl
  · rw [Transfer.callback, hside]
    simp only [callback, logHttpsReply]
    have hgrow := growBuffer_eq (p := (blockEntry b).rep) rfl t.chunk halloc.2
    rw [getD_rep_blockEntry] at hgrow
    simp only [holding, blockEntry_concat_reply hside, hlast]
    rw [show (blockEntry b).repLen = (sideBytes .reply b).length from rfl, hgrow]
    have hcond := blockFits_concat hfits t
    rw [hside] at hcond
    by_cases hfit : (sideBytes .reply b).length + t.chunk.bytes.length < uintSize
    · rw [if_pos hfit, if_pos (hcond.2 hfit)]
      simp only [bind, Except.bind, pure, Except.pure, Nat.mod_eq_of_lt hfit]
      simp [hside]
    · rw [if_neg hfit, if_neg (fun h ↦ hfit (hcond.1 h))]
      rfl

/-- **A request that starts a block** finds no slot or takes the old one away, and fits. -/
theorem logHttpsRequest_of_not_logRequest {c : LogConnection} (hc : c.logRequest = false)
    {t : Transfer} (hside : t.side = .request) (halloc : t.answers.Succeed) :
    logHttpsRequest (some c) t.chunk t.answers =
      .ok (some (holding (handOver c).1.ignoreSlots [t]), (handOver c).2) := by
  have hslot : newSlot t.answers = some ⟨0, 0, none, none⟩ := by rw [newSlot, if_pos halloc.1]
  have hgrow := growBuffer_eq (show ((none : Option Bytes).getD []).length = 0 from rfl) t.chunk
    halloc.2
  rw [Nat.zero_add, if_pos t.chunk.length_lt] at hgrow
  simp only [logHttpsRequest, hc, Bool.not_false, if_true, hslot, hgrow]
  have hentry : blockEntry [t] = ⟨t.chunk.bytes.length, 0, some t.chunk.bytes, none⟩ := by
    have hcat := blockEntry_concat_request (b := []) hside
    rw [List.nil_append] at hcat
    rw [hcat]
    simp [blockEntry, sideBytes]
  simp [bind, Except.bind, pure, Except.pure, holding, hentry, hside,
    Nat.mod_eq_of_lt t.chunk.length_lt]

/-! ### Runs on one connection -/

/-- **From the middle of a block to the end of the connection.** What is passed on is the current
block, with what still joins it, and the blocks after it, less those to be ignored; unless a block
does not fit. -/
theorem run_holding (sgx : Bool) (n : ℕ) {b : List Transfer} (hb : b ≠ [])
    (hchain : b.IsChain fun t u ↦ sameBlock t u) (hfits : BlockFits b) (ts : List Transfer)
    (halloc : ∀ t ∈ ts, t.answers.Succeed) :
    run (callback sgx) (some (holding n b)) (ts.map Transfer.callback ++ [.freeConnection]) =
      if ∀ c ∈ (b ++ ts).splitBy sameBlock, BlockFits c then
        .ok (none, (((b ++ ts).splitBy sameBlock).drop n).map blockEntry)
      else .error .outOfBounds := by
  -- on the transfers, with the block that the slot holds generalised
  induction ts generalizing b n with
  | nil =>
    rw [List.append_nil, List.splitBy_of_isChain hb hchain,
      if_pos (List.forall_mem_singleton.2 hfits)]
    simp only [List.map_nil, List.nil_append, run, callback, logFreeConnection, handOver_holding]
    simp [bind, Except.bind, pure, Except.pure]
  | cons t ts ih =>
    obtain ⟨ht, hts⟩ := List.forall_mem_cons.1 halloc
    rw [List.map_cons, List.cons_append, run]
    rcases Bool.eq_false_or_eq_true (sameBlock (b.getLast hb) t) with hsame | hnew
    · rw [callback_of_sameBlock sgx n hb hfits ht hsame]
      have hchain' := isChain_concat_of_sameBlock hb hchain hsame
      have hne : b ++ [t] ≠ [] := List.append_ne_nil_of_left_ne_nil hb _
      have hassoc : b ++ t :: ts = (b ++ [t]) ++ ts := List.append_cons b t ts
      by_cases hfits' : BlockFits (b ++ [t])
      · rw [if_pos hfits', hassoc]
        simp only [bind, Except.bind]
        rw [ih n hne hchain' hfits' hts]
        split_ifs <;> rfl
      · -- the first block of the rest begins with one that does not fit
        obtain ⟨c, bs, hsplit⟩ := exists_splitBy_eq_cons hne hchain' ts
        rw [if_neg hfits', hassoc, if_neg]
        · rfl
        · intro hall
          rw [hsplit] at hall
          exact hfits' (hall _ List.mem_cons_self).of_append
    · -- the block is complete
      have hside : t.side = .request := by
        rcases hs : t.side with - | -
        · rfl
        · rw [sameBlock, hs] at hnew
          simp at hnew
      have hreply : (holding n b).logRequest = false := by
        rw [holding, List.getLast?_eq_some_getLast hb]
        rcases hs : (b.getLast hb).side with - | -
        · rw [sameBlock, hs] at hnew
          simp at hnew
        · simp [hs]
      have hcall : callback sgx (some (holding n b)) t.callback =
          .ok (some (holding (n - 1) [t]), ([b].drop n).map blockEntry) := by
        rw [Transfer.callback, hside]
        simp only [callback]
        rw [logHttpsRequest_of_not_logRequest hreply hside ht, handOver_holding]
        rfl
      have hdrop : ∀ bs : List (List Transfer),
          [b].drop n ++ bs.drop (n - 1) = (b :: bs).drop n := by
        intro bs
        -- only the first block can take a place of those to be ignored
        rcases n with - | n
        · rfl
        · simp
      rw [hcall, splitBy_append_of_not_sameBlock hb hchain hnew]
      simp only [bind, Except.bind]
      rw [ih (n - 1) (List.cons_ne_nil t []) (List.isChain_singleton t) (blockFits_singleton t) hts,
        List.singleton_append]
      have hcond : (∀ c ∈ b :: (t :: ts).splitBy sameBlock, BlockFits c) ↔
          ∀ c ∈ (t :: ts).splitBy sameBlock, BlockFits c :=
        List.forall_mem_cons.trans (and_iff_right hfits)
      simp only [hcond]
      rw [← hdrop ((t :: ts).splitBy sameBlock), List.map_append]
      split_ifs <;> rfl

/-- **A connection from its creation to its end** passes on the entries of its blocks, less those
ignored, exactly when every block fits. -/
theorem run_lifetime (sgx : Bool) (c : Option LogConnection) {answers : Answers}
    (hanswers : answers.Succeed) (ts : List Transfer) (halloc : ∀ t ∈ ts, t.answers.Succeed) :
    run (callback sgx) c (lifetime answers ts) =
      if ∀ b ∈ blocks ts, BlockFits b then
        .ok (none, ((blocks ts).drop (ignoreSlots sgx)).map blockEntry)
      else .error .outOfBounds := by
  have hnew : logNewConnection sgx c answers = some ⟨false, ignoreSlots sgx, none⟩ :=
    if_pos hanswers.1
  have hfirst : run (callback sgx) (some ⟨false, ignoreSlots sgx, none⟩)
      (ts.map Transfer.callback ++ [.freeConnection]) =
      if ∀ b ∈ blocks ts, BlockFits b then
        .ok (none, ((blocks ts).drop (ignoreSlots sgx)).map blockEntry)
      else .error .outOfBounds := by
    clear hnew
    induction ts with
    | nil => simp [run, callback, logFreeConnection, handOver, blocks, bind, Except.bind, pure,
        Except.pure]
    | cons t ts ih =>
      obtain ⟨ht, hts⟩ := List.forall_mem_cons.1 halloc
      rcases hside : t.side with - | -
      · -- the first request, which starts a block
        have hblocks : blocks (t :: ts) = ([t] ++ ts).splitBy sameBlock := by
          rw [blocks, List.dropWhile_cons_of_neg (by simp [hside])]
          rfl
        have hcall : callback sgx (some ⟨false, ignoreSlots sgx, none⟩) t.callback =
            .ok (some (holding (ignoreSlots sgx) [t]), []) := by
          rw [Transfer.callback, hside]
          exact logHttpsRequest_of_not_logRequest (c := ⟨false, ignoreSlots sgx, none⟩) rfl hside ht
        rw [List.map_cons, List.cons_append, run, hcall]
        simp only [bind, Except.bind]
        rw [run_holding sgx _ (List.cons_ne_nil t []) (List.isChain_singleton t)
          (blockFits_singleton t) ts hts, hblocks]
        split_ifs <;> rfl
      · -- a reply without a request in front of it
        have hblocks : blocks (t :: ts) = blocks ts := by
          rw [blocks, List.dropWhile_cons_of_pos (by simp [hside]), blocks]
        have hcall : callback sgx (some ⟨false, ignoreSlots sgx, none⟩) t.callback =
            .ok (some ⟨false, ignoreSlots sgx, none⟩, []) := by
          rw [Transfer.callback, hside]
          rfl
        rw [List.map_cons, List.cons_append, run, hcall, hblocks]
        simp only [bind, Except.bind]
        rw [ih hts]
        split_ifs <;> rfl
  rw [lifetime, run]
  simp only [callback, hnew, bind, Except.bind]
  rw [hfirst]
  split_ifs <;> rfl

end LibSeal
