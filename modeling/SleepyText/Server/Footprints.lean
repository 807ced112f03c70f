import SleepyText.Lib.Footprint
import SleepyText.Server.Routing
import SleepyText.Server.Segments

set_option relaxedAutoImplicit false
set_option autoImplicit false

/-!
# What the handlers write

The handlers work in the memory that the connections share. An upload converts the lengths of its
records where they stand in the payload; whatever else is written goes to a block that `balloc` has
returned.

## Main definitions

* `Bytes.addresses` — the addresses of a range.
* `Callback.allocates`, `responseBlock` — the block that is allocated for a response.

## Main results

* `httpCallbackFeed_footprint` — an upload writes to its payload only.
* `respond_footprint` — whatever the request is, its handler writes to its payload and to its
  block only.
* `httpAssembleResponse_footprint` — the header of a response that fits is written to its block
  only.
-/

namespace SleepyText.Server

open Footprint

/-- The addresses of a range. -/
def Bytes.addresses (b : Bytes) : Set ℕ := Set.Ico b.asVoid (b.asVoid + b.len)

section Ranges

variable {m m' : Memory} {S : Set ℕ} {b : Bytes}

/-- Buffers are disjoint when one ends before the other. -/
lemma disjoint_addresses_iff {b b' : Bytes} (hb : b.len ≠ 0) (hb' : b'.len ≠ 0) :
    Disjoint b.addresses b'.addresses ↔
      b.asVoid + b.len ≤ b'.asVoid ∨ b'.asVoid + b'.len ≤ b.asVoid := by
  unfold Bytes.addresses
  rw [Set.Ico_disjoint_Ico]
  omega

/-- A range outside of the footprint reads the same. -/
lemma read_of_changedIn (h : ChangedIn S m m') (hdisjoint : Disjoint b.addresses S) :
    m'.read b = m.read b :=
  Memory.read_congr fun _ hx hx' => (h.eqOn hdisjoint ⟨hx, hx'⟩).symm

/-- Storing into a buffer. -/
lemma changedIn_store {bs : List UInt8} (hlen : bs.length ≤ b.len) :
    ChangedIn b.addresses m (m.store b.asVoid bs) := by
  apply changedIn_of_forall
  intro x hx
  rw [Memory.store_of_outside]
  rw [Bytes.addresses, Set.mem_Ico] at hx
  omega

/-- A smaller block at the same address. -/
lemma addresses_block {block k n : ℕ} (hk : k ≤ n) :
    Bytes.addresses ⟨block, k⟩ ⊆ Bytes.addresses ⟨block, n⟩ := by
  apply Set.Ico_subset_Ico_right
  dsimp only
  omega

/-- A print stays in its range. -/
lemma changedIn_bprintf (m : Memory) (b : Bytes) (text : List UInt8) :
    ChangedIn b.addresses m (bprintf m b text).1 := by
  unfold bprintf vsnprintf
  dsimp only
  split_ifs with hlen
  · exact .refl _ _
  · apply changedIn_store
    rw [List.length_append, List.length_take, List.length_singleton]
    omega

/-- A page is read into its block. -/
lemma changedIn_readPage (m : Memory) (page : ℕ) (content : Option (List UInt8)) :
    ChangedIn (Bytes.addresses ⟨page, 2 ^ 20⟩) m (readPage m page content).1 := by
  cases content with
  | none => exact .refl _ _
  | some content => exact changedIn_store (List.length_take_le _ _)

end Ranges

/-! ## The listing -/

/-- The addresses behind the first `k` bytes of a range. -/
lemma addresses_behind {b : Bytes} {k : ℕ} (hk : k ≤ b.len) :
    Bytes.addresses ⟨b.asVoid + k, sizeSub b.len k⟩ ⊆ b.addresses := by
  rw [sizeSub, if_pos hk, Bytes.addresses, Bytes.addresses]
  apply Set.Ico_subset_Ico
  · exact Nat.le_add_right _ _
  · dsimp only
    omega

/-- **The loop over the rows** stays in its range when their text does. -/
lemma changedIn_branchesLoop {rows : List Row} (m : Memory) {resp : Bytes}
    (hfit : (printedRows rows).length ≤ resp.len) :
    ChangedIn resp.addresses m (branchesLoop rows m resp).1 := by
  induction rows generalizing m resp with
  | nil => exact .refl _ _
  | cons r rows ih =>
    rw [printedRows_cons, List.length_append] at hfit
    have hrest := @ih (bprintf m resp r.printed).1
      ⟨resp.asVoid + r.printed.length, sizeSub resp.len r.printed.length⟩
      (by dsimp only; rw [sizeSub, if_pos (by omega)]; omega)
    exact (changedIn_bprintf m resp r.printed).trans (hrest.mono (addresses_behind (by omega)))

/-- **The listing** is printed to its block only, when it does not overrun it. -/
lemma changedIn_httpCallbackBranches {user : ℤ} {rows : List Row} (m : Memory) (block : ℕ)
    (hfits : user ≠ 0 → ¬ Overruns rows) :
    ChangedIn (Bytes.addresses ⟨block, 4096⟩) m (httpCallbackBranches user rows m block).2.1 := by
  rw [httpCallbackBranches]
  split_ifs with hzero
  · exact .refl _ _
  · exact changedIn_branchesLoop m (not_lt.mp (hfits hzero))

/-! ## The upload -/

/-- What is left of a range without its first bytes is a part of it. -/
lemma addresses_bslice_zero (b : Bytes) (start : ℕ) :
    (bslice b start 0).addresses ⊆ b.addresses := by
  rw [bslice_zero]
  split_ifs with h
  · simp [Bytes.addresses]
  · apply Set.Ico_subset_Ico
    · exact Nat.le_add_right _ _
    · dsimp only
      omega

/-- A turn of the upload writes to what is left of the payload. -/
lemma changedIn_convert (m : Memory) {p : Bytes} (hheader : 13 ≤ p.len) :
    ChangedIn p.addresses m (convert m p.asVoid) := by
  have hword (m : Memory) (a n : ℕ) (ha : p.asVoid ≤ a) (ha' : a + 4 ≤ p.asVoid + p.len) :
      ChangedIn p.addresses m (m.store32 a n) := by
    refine .mono ?_ (@changedIn_store m ⟨a, 4⟩ (Word.le32 n) (by simp [Word.le32, Word.be32]))
    exact Set.Ico_subset_Ico ha ha'
  exact (hword _ _ _ (by omega) (by omega)).trans (hword _ _ _ (by omega) (by omega))

/-- **One turn** of the upload, or its end. -/
lemma changedIn_feedBody {env : SystemCalls} (f : FeedState) : match feedBody env f with
    | .inl g => ChangedIn f.p.addresses f.mem g.mem ∧ g.p.addresses ⊆ f.p.addresses
    | .inr (_, g) => ChangedIn f.p.addresses f.mem g.mem := by
  cases hbody : feedBody env f with
  | inl g =>
    cases moves_of_feedBody hbody with
    | segment _ _ hmem hp =>
      refine ⟨?_, ?_⟩
      · rw [hmem]
        exact .refl _ _
      · rw [hp]
        exact addresses_bslice_zero _ _
    | record _ hheader _ hmem hp =>
      refine ⟨?_, ?_⟩
      · rw [hmem]
        exact changedIn_convert _ hheader
      · rw [hp]
        exact addresses_bslice_zero _ _
  | inr r =>
    obtain ⟨status, g⟩ := r
    dsimp only
    unfold feedBody at hbody
    split_ifs at hbody with hpos hsegment hrecord
    · unfold feedSegment at hbody
      have hmem : (if f.file.isSome then f.write env else f).mem = f.mem := by split_ifs <;> rfl
      generalize (if f.file.isSome then f.write env else f) = w at hbody hmem
      dsimp only at hbody
      split_ifs at hbody with hbid hopen
      all_goals
        obtain rfl := congrArg Prod.snd (Sum.inr.inj hbody)
        dsimp only
        rw [hmem]
        exact .refl _ _
    · unfold feedRecord at hbody
      dsimp only at hbody
      split_ifs at hbody with hfile hshort hlong
      · obtain rfl := congrArg Prod.snd (Sum.inr.inj hbody)
        exact .refl _ _
      · obtain rfl := congrArg Prod.snd (Sum.inr.inj hbody)
        exact .refl _ _
      · -- the lengths are converted before the record is found to be too long
        obtain rfl := congrArg Prod.snd (Sum.inr.inj hbody)
        exact changedIn_convert _ (by omega)
    · obtain rfl := congrArg Prod.snd (Sum.inr.inj hbody)
      exact .refl _ _
    · obtain rfl := congrArg Prod.snd (Sum.inr.inj hbody)
      exact .refl _ _

/-- The loop of the upload writes to what is left of the payload. -/
lemma changedIn_of_leaves {env : SystemCalls} {f : FeedState} {r : HttpResult × FeedState}
    (h : Loop.Leaves (feedBody env) f r) : ChangedIn f.p.addresses f.mem r.2.mem := by
  induction h with
  | @leave f r hbody =>
    have hturn := @changedIn_feedBody env f
    rw [hbody] at hturn
    exact hturn
  | @turn f g r hbody _ ih =>
    have hturn := @changedIn_feedBody env f
    rw [hbody] at hturn
    exact hturn.1.trans (ih.mono hturn.2)

/-- **An upload** writes to its payload only, whatever its result is. -/
theorem httpCallbackFeed_footprint {env : SystemCalls} {m : Memory} {payload : Bytes}
    {dir : Directory} {r : HttpResult × FeedState}
    (h : httpCallbackFeed env m payload dir = some r) : ChangedIn payload.addresses m r.2.mem :=
  changedIn_of_leaves (Loop.leaves_of_loop h)

/-! ## All handlers -/

/-- The size of the block that a handler gets from `balloc` for what it returns. -/
def Callback.allocates : Callback → ℕ
  | .root | .branch => 2 ^ 20
  | .branches => 4096
  | .login => 128
  | .newbranch | .feed | .user => 0

/-- The block for what is returned for a request: for the key of a handshake, or that of the
handler. -/
def responseBlock (w : World) (m : Memory) (request : HttpRequest) : Bytes where
  asVoid := w.block
  len :=
    if websocketVersion (m.read request.header) = 13 then 128
    else ((httpServerCallbackDispatch m request pairs).map Callback.allocates).getD 0

section Handlers

variable {w : World} {m m' : Memory} {request : HttpRequest} {s s' : ServerState}
  {raw : RawResponse}

/-- **Each handler** writes to the payload and to its block, except for a listing that overruns. -/
lemma changedIn_run {callback : Callback} (hfits : ¬ callback.Overruns m request s)
    (h : callback.run w m request s = some (m', raw, s')) :
    ChangedIn (request.payload.addresses ∪ Bytes.addresses ⟨w.block, callback.allocates⟩) m m' := by
  cases callback with
  | root =>
    obtain rfl := congrArg Prod.fst (Option.some.inj h)
    exact (changedIn_readPage _ _ _).mono Set.subset_union_right
  | newbranch =>
    obtain rfl := congrArg Prod.fst (Option.some.inj h)
    exact .refl _ _
  | branch =>
    obtain rfl := congrArg Prod.fst (Option.some.inj h)
    exact (changedIn_readPage _ _ _).mono Set.subset_union_right
  | branches =>
    have hm : m' = (httpCallbackBranches _ _ m w.block).2.1 :=
      (congrArg Prod.fst (Option.some.inj h)).symm
    rw [hm]
    exact (changedIn_httpCallbackBranches m w.block fun hzero hlong => hfits ⟨hzero, hlong⟩).mono
      Set.subset_union_right
  | feed =>
    obtain ⟨r, hfeed, hout⟩ := Option.map_eq_some_iff.mp h
    obtain rfl := congrArg Prod.fst hout
    exact (httpCallbackFeed_footprint hfeed).mono Set.subset_union_left
  | user =>
    simp only [Callback.run, Option.some.injEq, httpCallbackUser] at h
    split_ifs at h
    all_goals
      obtain rfl := congrArg Prod.fst h
      exact .refl _ _
  | login =>
    simp only [Callback.run, Option.some.injEq, httpCallbackLogin] at h
    split at h
    · obtain rfl := congrArg Prod.fst h
      exact .refl _ _
    · split_ifs at h
      · obtain rfl := congrArg Prod.fst h
        exact (changedIn_bprintf m ⟨w.block, 128⟩ _).mono Set.subset_union_right
      · obtain rfl := congrArg Prod.fst h
        exact .refl _ _

/-- The key of a handshake is put into a block of 128 bytes. -/
lemma changedIn_rawAccept (w : World) (m : Memory) (r : HttpRawResponse) :
    ChangedIn (Bytes.addresses ⟨w.block, 128⟩) m (rawAccept w m r).1 := by
  unfold rawAccept
  split
  · exact .refl _ _
  · exact changedIn_store (List.length_take_le _ _)

/-- **What a request changes in the memory**: whatever it is, and whatever the tables and the files
are, nothing outside of its payload and the block that is allocated for it. -/
theorem respond_footprint {accept : List UInt8 → List UInt8}
    (h : respond accept w m request s = some (m', raw, s')) :
    ChangedIn (request.payload.addresses ∪ (responseBlock w m request).addresses) m m' := by
  unfold respond at h
  rw [httpWebsocketAccept_eq, websocketAccept] at h
  unfold responseBlock
  by_cases hversion : websocketVersion (m.read request.header) = 13
  · rw [if_pos hversion]
    rw [if_neg (by simpa using hversion)] at h
    dsimp only at h
    have hstatus (r : HttpRawResponse) : (rawAccept w m r).2.status = r.status := by
      unfold rawAccept
      split <;> rfl
    rw [hstatus, if_neg (by simp [httpResult])] at h
    obtain rfl := congrArg Prod.fst (Option.some.inj h)
    exact (changedIn_rawAccept _ _ _).mono Set.subset_union_right
  · rw [if_neg hversion]
    rw [if_pos hversion] at h
    dsimp only [rawAccept, httpResult] at h
    rw [if_pos (by simp), dispatch] at h
    split at h
    · obtain rfl := congrArg Prod.fst (Option.some.inj h)
      exact .refl _ _
    · rename_i callback hdispatch
      rw [hdispatch]
      split_ifs at h with hoverruns
      exact changedIn_run hoverruns h

end Handlers

/-! ## The response -/

section Response

variable {extent : ℕ} {m : Memory}

/-- A text that is printed in two parts. -/
lemma changedIn_bprintf_behind {m' : Memory} {p : Bytes} {text : List UInt8}
    (hlen : text.length ≤ p.len)
    (hrest : ChangedIn (bprintf m p text).2.2.addresses (bprintf m p text).1 m') :
    ChangedIn p.addresses m m' :=
  (changedIn_bprintf m p text).trans (hrest.mono (addresses_behind hlen))

/-- A line of the header does not depend on what the others are printed to. -/
lemma headerLine_of_changedIn {S : Set ℕ} {m' : Memory} (h : ChangedIn S m m') {f : HttpHeader}
    (hf : Disjoint (Bytes.addresses ⟨f.val.asVoid, extent⟩) S) :
    headerLine m' extent f = headerLine m extent f := by
  rw [headerLine, headerLine, cstring, cstring, read_of_changedIn h hf]

/-- **The header fields** are printed to what is left of the block, when they fit. -/
lemma changedIn_headersLoop {headers : List HttpHeader} {p : Bytes}
    (houtside : ∀ f ∈ headers, Disjoint (Bytes.addresses ⟨f.val.asVoid, extent⟩) p.addresses)
    (hfit : (headers.flatMap (headerLine m extent)).length ≤ p.len) :
    ChangedIn p.addresses m (headersLoop extent headers m p).1 ∧
      (headersLoop extent headers m p).2.addresses ⊆ p.addresses := by
  induction headers generalizing m p with
  | nil => exact ⟨.refl _ _, subset_rfl⟩
  | cons f headers ih =>
    rw [List.flatMap_cons, List.length_append] at hfit
    set line := headerLine m extent f with hline
    have hbehind : (bprintf m p line).2.2.addresses ⊆ p.addresses := addresses_behind (by omega)
    have hsame : headers.flatMap (headerLine (bprintf m p line).1 extent) =
        headers.flatMap (headerLine m extent) := by
      apply List.flatMap_congr
      intro g hg
      exact headerLine_of_changedIn (changedIn_bprintf m p line)
        (houtside g (List.mem_cons_of_mem f hg))
    obtain ⟨hchanged, hsubset⟩ := @ih (bprintf m p line).1 (bprintf m p line).2.2
      (fun g hg => (houtside g (List.mem_cons_of_mem f hg)).mono_right hbehind)
      (by
        rw [hsame]
        unfold bprintf vsnprintf
        dsimp only
        rw [sizeSub, if_pos (by omega)]
        omega)
    exact ⟨changedIn_bprintf_behind (by omega) hchanged, hsubset.trans hbehind⟩

/-- **The header of a response** that fits into its block is written there only, when the values of
its fields stand elsewhere. -/
theorem httpAssembleResponse_footprint {block : ℕ} {raw : RawResponse}
    (houtside : ∀ f ∈ raw.headers,
      Disjoint (Bytes.addresses ⟨f.val.asVoid, extent⟩) (Bytes.addresses ⟨block, 4096⟩))
    (hfit : (headerText m extent raw).length < 4096) :
    ChangedIn (Bytes.addresses ⟨block, 4096⟩) m (httpAssembleResponse extent block m raw).1 := by
  simp only [headerText, List.length_append, List.length_cons, List.length_nil] at hfit
  set first := bprintf m ⟨block, 4096⟩ (statusLine raw.status) with hfirst
  set second := bprintf first.1 first.2.2 (bodyLines raw.status raw.payload.len) with hsecond
  have hlen : first.2.2.len = 4096 - (statusLine raw.status).length := by
    rw [hfirst]
    exact if_pos (by dsimp only; omega)
  have hlen' : second.2.2.len = 4096 - (statusLine raw.status).length -
      (bodyLines raw.status raw.payload.len).length := by
    rw [← hlen]
    exact if_pos (by omega)
  have hbehind : first.2.2.addresses ⊆ Bytes.addresses ⟨block, 4096⟩ :=
    addresses_behind (by dsimp only; omega)
  have hbehind' : second.2.2.addresses ⊆ Bytes.addresses ⟨block, 4096⟩ :=
    (addresses_behind (by omega)).trans hbehind
  have hchanged : ChangedIn (Bytes.addresses ⟨block, 4096⟩) m second.1 :=
    (changedIn_bprintf _ _ _).trans ((changedIn_bprintf _ _ _).mono hbehind)
  have hlines : raw.headers.flatMap (headerLine second.1 extent) =
      raw.headers.flatMap (headerLine m extent) := by
    apply List.flatMap_congr
    intro f hf
    exact headerLine_of_changedIn hchanged (houtside f hf)
  obtain ⟨hfields, hsubset⟩ := @changedIn_headersLoop extent second.1 raw.headers second.2.2
    (fun f hf => (houtside f hf).mono_right hbehind') (by rw [hlines]; omega)
  have hend := changedIn_bprintf (headersLoop extent raw.headers second.1 second.2.2).1
    (headersLoop extent raw.headers second.1 second.2.2).2 [13, 10]
  exact (hchanged.trans (hfields.mono hbehind')).trans (hend.mono (hsubset.trans hbehind'))

end Response

end SleepyText.Server
