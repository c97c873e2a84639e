import WaiNative.Dataset.BlockObject
import WaiNative.Theory.HashChain
import WaiNative.Theory.Runs

/-!
# `repo-ipfs-wiki/collect-block.js`: clips into linked blocks

The collector reads the clips of one level database in key order, fetches each from
IPFS and adds a block to IPFS whenever the clips waiting have `OneBlockSize` bytes
together, and one more when the stream ends. In a second database it keeps the hash
of the top block and, for each block that was full, the last clip of it. A new run
looks up the top block's clip and reads on behind it.

The calls of IPFS and the puts are not awaited, so a run is a system of events: the
stream's, the answers of IPFS, puts that reach the disk, and a crash at any point.
`safe` is the condition under which an event does no harm.

- `Disk`: what holds of the databases between runs, whatever happened to the last one,
  and `Stored`, what holds of them during a run, with the puts on their way;
- `Reading`: what holds of a run under way: the clips of its blocks, those that wait,
  and those still to come are the long clips of the store;
- `collected_in_order`: along safe runs, the linked blocks hold each long clip of a
  finished run once, and each run starts behind the last clip of the top block.

IPFS is a parameter. The order of the keys is that of their units, which for ASCII
keys is level's.
-/

namespace WaiNative.RepoIpfsWiki

open HashChain Runs

/-! ## IPFS -/

/-- A file that `ipfs.get` returns; a directory has no content. -/
structure IpfsFile where
  path : JsString
  content : Option ℕ
deriving DecidableEq

def Genesis : JsString := units "Genesis"

def topBlockPosition : JsString := units "top-block-position"

def wiki_dump_resume_pos : JsString := units "wiki_dump_resume_pos"

def OneBlockSize : ℕ := 4 * 1024 * 1024

def minArticleSize : ℕ := 100

/-- What the collector relies on: IPFS is addressed by content. Of a file only the
length of its content is read. -/
structure Ipfs where
  get : JsString → List IpfsFile
  hash : JsString → JsString
  path_eq : ∀ {path file}, get path = [file] → file.path = path
  hash_injective : Function.Injective hash
  hash_ne_Genesis : ∀ text, hash text ≠ Genesis
  hash_ne_topBlockPosition : ∀ text, hash text ≠ topBlockPosition

/-! ## The script -/

/-- A read stream: the keys it has still to deliver. -/
structure Stream where
  rest : List JsString
  flowing : Bool
  ended : Bool

/-- A call of `ipfs.add` under way. -/
structure Save where
  block : BlockObject
  path : Option JsString

/-- The variables of the script, and the calls under way. -/
structure Collector where
  prevBlock : JsString
  lastCollectedClip : JsString
  stream : Option Stream
  fetching : Option JsString
  blockSizeCounter : ℕ
  blockResourceCache : List JsString
  saves : List Save
  puts : List (JsString × JsString)

namespace Collector

def new : Collector := ⟨Genesis, [], none, none, 0, [], [], []⟩

/-- `stream.resume()` -/
def resume (c : Collector) : Collector :=
  { c with stream := c.stream.map (fun stream => { stream with flowing := true }) }

/-- `db.createReadStream({gt:lastCollectedClip})`, or of everything. -/
def startReadClips (clips : List JsString) (c : Collector) : Collector :=
  { c with
    stream := some
      { rest := if c.lastCollectedClip ≠ [] then
          clips.filter (fun key => decide (c.lastCollectedClip < key)) else clips
        flowing := true
        ended := false } }

/-- What is read from the two databases at the start; `none` is `notFound`. -/
def start (clips : List JsString) (dbBlock : JsString → Option JsString) : Collector :=
  match dbBlock topBlockPosition with
  | none => startReadClips clips new
  | some value =>
      match dbBlock value with
      | none => { new with prevBlock := value }
      | some value2 =>
          startReadClips clips { new with prevBlock := value, lastCollectedClip := value2 }

section Handlers

variable (gGroup : JsString)

/-- `writeBlock`, up to the call of `ipfs.add`. -/
def writeBlock (path : Option JsString) (c : Collector) : Collector :=
  { c with
    saves := c.saves ++
      [⟨⟨c.prevBlock, gGroup, c.blockSizeCounter, c.blockResourceCache⟩, path⟩]
    blockSizeCounter := 0
    blockResourceCache := [] }

/-- `onIpfsFileContent` of a file with content. -/
def onContent (path : JsString) (length : ℕ) (c : Collector) : Collector :=
  if length > minArticleSize then
    let c := { c with
      blockSizeCounter := c.blockSizeCounter + length
      blockResourceCache := c.blockResourceCache ++ [path] }
    if c.blockSizeCounter ≥ OneBlockSize then writeBlock gGroup (some path) c
    else c.resume
  else c.resume

def onIpfsFileContent (file : IpfsFile) (c : Collector) : Collector :=
  match file.content with
  | some length => onContent gGroup file.path length c
  | none => c.resume

/-- `readIpfsInfo` behind its `await`. -/
def onIpfsInfo (result : List IpfsFile) (c : Collector) : Collector :=
  match result with
  | [file] => onIpfsFileContent gGroup file c
  | _ => c.resume

/-- The handler of `data`. -/
def onData (key : JsString) (stream : Stream) (c : Collector) : Collector :=
  if key ≠ wiki_dump_resume_pos then
    { c with stream := some { stream with flowing := false }, fetching := some key }
  else { c with stream := some stream }

/-- `if(path) pushIpfs2BlockDB(hash,path)`. -/
def putPath (hash : JsString) : Option JsString → List (JsString × JsString)
  | some path => if path ≠ [] then [(hash, path)] else []
  | none => []

/-- `save2Ipfs` behind its `await`. -/
def onSaved (hash : JsString) (path : Option JsString) (c : Collector) : Collector :=
  let c := { c with
    prevBlock := hash
    puts := c.puts ++ (putPath hash path ++ [(topBlockPosition, hash)]) }
  if hash ≠ [] then c.resume else c

end Handlers

end Collector

/-! ## The system -/

/-- The keys of the clip database in order, the block database, the blocks in IPFS,
the process if one runs, and the clips there were at the end of the last finished
run. -/
structure System where
  clips : List JsString
  dbBlock : JsString → Option JsString
  blocks : List BlockObject
  process : Option Collector
  finished : List JsString

def System.empty : System := ⟨[], fun _ => none, [], none, []⟩

inductive Event
  | addClip (key : JsString)
  | start
  | data
  | got
  | getFailed
  | streamEnd
  | added (i : ℕ)
  | put (i : ℕ)
  | crash
  | exit

/-- The key takes its place in the database. -/
def insertClip (key : JsString) : List JsString → List JsString
  | [] => [key]
  | clip :: clips =>
      if key < clip then key :: clip :: clips
      else if key = clip then clip :: clips
      else clip :: insertClip key clips

/-- The run has read everything and nothing is under way. -/
def Collector.done (c : Collector) : Bool :=
  match c.stream with
  | some stream => stream.ended && c.fetching.isNone && c.saves.isEmpty && c.puts.isEmpty
  | none => false

section System

variable (ipfs : Ipfs) (gGroup : JsString)

/-- The hash of a block's text. -/
def Ipfs.hashOf (block : BlockObject) : JsString := ipfs.hash (block.stringify none)

/-- The process goes on as `c`. -/
def System.next (s : System) (c : Collector) : System := { s with process := some c }

/-- One event; `none` where it cannot happen. The stream ends when it has delivered
its last key, if it flows or the handler of this key has just paused it. Puts of one
key reach the disk in the order of the calls. -/
def step (s : System) : Event → Option System
  | .addClip key =>
      if s.process.isNone ∧ key ≠ [] then some { s with clips := insertClip key s.clips }
      else none
  | .start =>
      if s.process.isNone then some (s.next (Collector.start s.clips s.dbBlock)) else none
  | .data => do
      let c ← s.process
      let stream ← c.stream
      match stream.rest with
      | key :: rest =>
          if stream.flowing then some (s.next (c.onData key { stream with rest := rest }))
          else none
      | [] => none
  | .got => do
      let c ← s.process
      let path ← c.fetching
      let c := { c with fetching := none }
      some (s.next (c.onIpfsInfo gGroup (ipfs.get path)))
  | .getFailed => do
      let c ← s.process
      let _ ← c.fetching
      let c := { c with fetching := none }
      some (s.next c.resume)
  | .streamEnd => do
      let c ← s.process
      let stream ← c.stream
      if stream.rest = [] ∧ stream.ended = false ∧ (stream.flowing ∨ c.fetching.isSome) then
        let c := { c with stream := some { stream with ended := true } }
        some (s.next (c.writeBlock gGroup none))
      else none
  | .added i => do
      let c ← s.process
      let save ← c.saves[i]?
      let c := { c with saves := c.saves.eraseIdx i }
      some { s.next (c.onSaved (ipfs.hashOf save.block) save.path) with
        blocks := s.blocks ++ [save.block] }
  | .put i => do
      let c ← s.process
      let (key, value) ← c.puts[i]?
      if ∀ earlier ∈ c.puts.take i, earlier.1 ≠ key then
        let c := { c with puts := c.puts.eraseIdx i }
        some { s.next c with
          dbBlock := fun k => if k = key then some value else s.dbBlock k }
      else none
  | .crash => if s.process.isSome then some { s with process := none } else none
  | .exit => do
      let c ← s.process
      if c.done then some { s with process := none, finished := s.clips } else none

/-! ## What the blocks hold -/

/-- The key is that of a clip which belongs into a block. -/
def Ipfs.isLong (key : JsString) : Bool :=
  key ≠ wiki_dump_resume_pos &&
    match ipfs.get key with
    | [file] => match file.content with
      | some length => length > minArticleSize
      | none => false
    | _ => false

/-- Blocks in IPFS that are linked from `hash` back to `Genesis`. -/
structure ChainTo (s : System) (hash : JsString) (chain : List BlockObject) : Prop where
  stored : ∀ block ∈ chain, block ∈ s.blocks
  linked : LinkedFrom BlockObject.prev ipfs.hashOf Genesis chain
  tip : tip ipfs.hashOf Genesis chain = hash

/-- The hash of the top block. -/
def System.top (s : System) : JsString := (s.dbBlock topBlockPosition).getD Genesis

/-- The clips of the blocks. -/
def clipsOf (chain : List BlockObject) : List JsString := chain.flatMap BlockObject.resource

/-- The blocks linked from the top to `Genesis` hold each long clip of the last
finished run once. -/
def HoldsFinished (s : System) : Prop :=
  (∃ chain, ChainTo ipfs s s.top chain) ∧ ∀ chain, ChainTo ipfs s s.top chain →
    ∀ clip ∈ s.finished, ipfs.isLong clip = true → (clipsOf chain).count clip = 1

/-- The process reads the clips behind the last clip of the top block, all of them
if there is no block. -/
def ContinuesBehindTop (s t : System) : Prop :=
  ∃ c stream, t.process = some c ∧ c.stream = some stream ∧
    ((s.dbBlock topBlockPosition = none ∧ stream.rest = s.clips) ∨
      ∃ block ∈ s.blocks, ∃ clip, s.dbBlock topBlockPosition = some (ipfs.hashOf block) ∧
        block.resource.getLast? = some clip ∧
        stream.rest = s.clips.filter (fun key => decide (clip < key)))

/-- An event that does no harm: a new long clip is added behind the one on record for
the top block; a run is started when this clip is on record; no long clip is lost
because its fetch fails or the stream ends during it. -/
def safe (s : System) : Event → Bool
  | .addClip key =>
      !ipfs.isLong key || s.clips.contains key || match s.dbBlock topBlockPosition with
      | none => true
      | some value => match s.dbBlock value with
        | none => true
        | some clip => clip < key
  | .start => match s.dbBlock topBlockPosition with
      | none => true
      | some value => (s.dbBlock value).isSome
  | .getFailed | .streamEnd => match s.process with
      | none => true
      | some c => match c.fetching with
        | none => true
        | some key => !ipfs.isLong key
  | _ => true

end System

/-! ## Chains -/

section Chains

variable {ipfs : Ipfs} {s s' : System} {hash : JsString} {chain : List BlockObject}

theorem Ipfs.hashOf_injective : Function.Injective ipfs.hashOf :=
  ipfs.hash_injective.comp (BlockObject.stringify_injective none)

/-- Only one chain leads to a hash. -/
theorem ChainTo.unique {chain' : List BlockObject} (h : ChainTo ipfs s hash chain)
    (h' : ChainTo ipfs s hash chain') : chain = chain' :=
  h.linked.unique Ipfs.hashOf_injective (fun _ => ipfs.hash_ne_Genesis _) h'.linked
    (h.tip.trans h'.tip.symm)

theorem ChainTo.mono (h : ChainTo ipfs s hash chain)
    (hblocks : ∀ block ∈ s.blocks, block ∈ s'.blocks) : ChainTo ipfs s' hash chain :=
  ⟨fun block hblock => hblocks block (h.stored block hblock), h.linked, h.tip⟩

theorem chainTo_nil : ChainTo ipfs s Genesis [] := ⟨by simp, trivial, rfl⟩

theorem top_of_none (h : s.dbBlock topBlockPosition = none) : s.top = Genesis := by
  rw [System.top, h, Option.getD_none]

theorem top_of_some {value : JsString} (h : s.dbBlock topBlockPosition = some value) :
    s.top = value := by
  rw [System.top, h, Option.getD_some]

/-- No block, no chain. -/
theorem ChainTo.eq_nil (h : ChainTo ipfs s s.top chain)
    (hnone : s.dbBlock topBlockPosition = none) : chain = [] := by
  rw [top_of_none hnone] at h
  exact h.unique chainTo_nil

theorem ChainTo.append {block : BlockObject} (h : ChainTo ipfs s hash chain)
    (hprev : block.prev = hash) (hblocks : ∀ block ∈ s.blocks, block ∈ s'.blocks)
    (hblock : block ∈ s'.blocks) :
    ChainTo ipfs s' (ipfs.hashOf block) (chain ++ [block]) where
  stored := by
    intro b hb
    rcases List.mem_append.mp hb with hb | hb
    · exact hblocks b (h.stored b hb)
    · rw [List.mem_singleton.mp hb]
      exact hblock
  linked := linked_append_singleton.mpr ⟨h.linked, hprev.trans h.tip.symm⟩
  tip := tip_append_singleton _ _

/-- The chain to a block's hash ends with the block. -/
theorem ChainTo.eq_append {block : BlockObject}
    (h : ChainTo ipfs s (ipfs.hashOf block) chain) :
    ∃ init, chain = init ++ [block] := by
  rcases List.eq_nil_or_concat' chain with rfl | ⟨init, last, rfl⟩
  · exact absurd h.tip.symm (ipfs.hash_ne_Genesis _)
  · have htip := h.tip
    rw [tip_append_singleton] at htip
    rw [Ipfs.hashOf_injective htip]
    exact ⟨init, rfl⟩

@[simp] theorem clipsOf_append_singleton (chain : List BlockObject) (block : BlockObject) :
    clipsOf (chain ++ [block]) = clipsOf chain ++ block.resource := by
  simp [clipsOf]

end Chains

/-! ## The order of the clips -/

section Order

variable (ipfs : Ipfs)

/-- The clips that belong into blocks. -/
def Ipfs.longs (keys : List JsString) : List JsString := keys.filter ipfs.isLong

variable {ipfs}

theorem isLong_resume_pos : ipfs.isLong wiki_dump_resume_pos = false := by
  simp [Ipfs.isLong]

theorem mem_insertClip {key k : JsString} : ∀ {clips : List JsString},
    k ∈ insertClip key clips → k = key ∨ k ∈ clips
  | [], h => Or.inl (List.mem_singleton.mp h)
  | clip :: clips, h => by
      rw [insertClip] at h
      split at h
      · exact List.mem_cons.mp h
      · split at h
        · exact Or.inr h
        · rcases List.mem_cons.mp h with rfl | h
          · exact Or.inr List.mem_cons_self
          · exact (mem_insertClip h).imp_right (List.mem_cons_of_mem _)

theorem insertClip_sorted {key : JsString} : ∀ {clips : List JsString},
    clips.Pairwise (· < ·) → (insertClip key clips).Pairwise (· < ·)
  | [], _ => List.pairwise_singleton _ _
  | clip :: clips, h => by
      obtain ⟨hclip, hclips⟩ := List.pairwise_cons.mp h
      rw [insertClip]
      by_cases hlt : key < clip
      · rw [if_pos hlt]
        refine List.pairwise_cons.mpr ⟨?_, h⟩
        rintro k (_ | ⟨_, hk⟩)
        · exact hlt
        · exact List.lt_trans hlt (hclip k hk)
      · rw [if_neg hlt]
        by_cases heq : key = clip
        · rw [if_pos heq]
          exact h
        · rw [if_neg heq]
          refine List.pairwise_cons.mpr ⟨?_, insertClip_sorted hclips⟩
          intro k hk
          rcases mem_insertClip hk with rfl | hk
          · exact Std.lt_of_le_of_ne (List.not_lt.mp hlt) (Ne.symm heq)
          · exact hclip k hk

theorem longs_insertClip_short {key : JsString} (hkey : ipfs.isLong key = false) :
    ∀ clips : List JsString, ipfs.longs (insertClip key clips) = ipfs.longs clips
  | [] => by simp [insertClip, Ipfs.longs, hkey]
  | clip :: clips => by
      have ih := longs_insertClip_short hkey clips
      unfold Ipfs.longs at ih ⊢
      rw [insertClip]
      split
      · rw [List.filter_cons_of_neg (by simp [hkey])]
      · split
        · rfl
        · rw [List.filter_cons, List.filter_cons, ih]

theorem insertClip_mem {key : JsString} : ∀ {clips : List JsString},
    clips.Pairwise (· < ·) → key ∈ clips → insertClip key clips = clips
  | clip :: clips, h, hmem => by
      obtain ⟨hclip, hclips⟩ := List.pairwise_cons.mp h
      rw [insertClip]
      rcases List.mem_cons.mp hmem with rfl | hmem
      · rw [if_neg (List.lt_irrefl _), if_pos rfl]
      · have hlt : clip < key := hclip key hmem
        have hne : key ≠ clip := by
          rintro rfl
          exact List.lt_irrefl _ hlt
        rw [if_neg (List.lt_asymm hlt), if_neg hne, insertClip_mem hclips hmem]

/-- A key behind the first clips does not come between them. -/
theorem prefix_longs_insertClip {key : JsString} : ∀ {clips first : List JsString},
    clips.Pairwise (· < ·) → first <+: ipfs.longs clips → (∀ k ∈ first, k < key) →
    first <+: ipfs.longs (insertClip key clips)
  | [], first, _, h, _ => by
      rw [List.prefix_nil.mp h]
      exact List.nil_prefix
  | clip :: clips, [], _, _, _ => List.nil_prefix
  | clip :: clips, k :: first, hsorted, h, hbehind => by
      obtain ⟨hclip, hclips⟩ := List.pairwise_cons.mp hsorted
      have hk : k < key := hbehind k List.mem_cons_self
      have hmem : k ∈ clip :: clips :=
        List.mem_of_mem_filter (h.subset List.mem_cons_self)
      -- the key is behind the first clip of the store, which is not behind `k`
      have hlt : clip < key := by
        rcases List.mem_cons.mp hmem with rfl | hmem
        · exact hk
        · exact List.lt_trans (hclip k hmem) hk
      have hnot : ¬ key < clip := List.lt_asymm hlt
      have hne : key ≠ clip := by
        rintro rfl
        exact List.lt_irrefl _ hlt
      rw [insertClip, if_neg hnot, if_neg hne]
      unfold Ipfs.longs at h ⊢
      by_cases hlong : ipfs.isLong clip = true
      · rw [List.filter_cons_of_pos hlong] at h ⊢
        obtain ⟨rfl, hrest⟩ := List.cons_prefix_cons.mp h
        exact List.cons_prefix_cons.mpr ⟨rfl, prefix_longs_insertClip hclips hrest
          (fun x hx => hbehind x (List.mem_cons_of_mem _ hx))⟩
      · rw [List.filter_cons_of_neg hlong] at h ⊢
        exact prefix_longs_insertClip hclips h hbehind

/-- Behind the last of the first long clips stand the other ones. -/
theorem longs_behind {clips first rest : List JsString} {last : JsString}
    (hsorted : clips.Pairwise (· < ·)) (hlongs : ipfs.longs clips = first ++ rest)
    (hlast : first.getLast? = some last) :
    ipfs.longs (clips.filter (fun key => decide (last < key))) = rest := by
  have hsub : (first ++ rest).Pairwise (· < ·) := by
    rw [← hlongs]
    exact hsorted.sublist List.filter_sublist
  obtain ⟨init, rfl⟩ := List.getLast?_eq_some_iff.mp hlast
  obtain ⟨hinit, hrest, hboth⟩ := List.pairwise_append.mp hsub
  obtain ⟨-, -, hbefore⟩ := List.pairwise_append.mp hinit
  have hcomm : ipfs.longs (clips.filter (fun key => decide (last < key))) =
      (ipfs.longs clips).filter (fun key => decide (last < key)) := by
    unfold Ipfs.longs
    rw [List.filter_filter, List.filter_filter]
    apply List.filter_congr
    intro key _
    exact Bool.and_comm _ _
  have hnone : (init ++ [last]).filter (fun key => decide (last < key)) = [] := by
    apply List.filter_eq_nil_iff.mpr
    intro key hkey
    rw [decide_eq_true_eq]
    rcases List.mem_append.mp hkey with hkey | hkey
    · exact List.lt_asymm (hbefore key hkey last List.mem_cons_self)
    · rw [List.mem_singleton.mp hkey]
      exact List.lt_irrefl _
  have hall : rest.filter (fun key => decide (last < key)) = rest := by
    apply List.filter_eq_self.mpr
    intro key hkey
    rw [decide_eq_true_eq]
    exact hboth last (by simp) key hkey
  rw [hcomm, hlongs, List.filter_append, hnone, hall, List.nil_append]

end Order

/-! ## A run under way -/

section Reading

variable {ipfs : Ipfs} {gGroup : JsString} {longs held : List JsString} {c : Collector}
  {stream : Stream} {key : JsString}

/-- The long clips of the store are those the blocks hold, those of the block that is
being added, those that wait, the one being fetched, and those the stream has still to
deliver. The stream stands still while a clip is fetched or a block is added, and when
it has ended nothing waits. -/
structure Reading (ipfs : Ipfs) (longs held : List JsString) (c : Collector)
    (stream : Stream) : Prop where
  reads : c.stream = some stream
  order : longs = held ++ (c.saves.flatMap (fun save => save.block.resource) ++
    (c.blockResourceCache ++ (ipfs.longs c.fetching.toList ++ ipfs.longs stream.rest)))
  one_save : c.saves.length ≤ 1
  save_prev : ∀ save ∈ c.saves, save.block.prev = c.prevBlock
  save_path : ∀ save ∈ c.saves, ∀ path, save.path = some path →
    save.block.resource.getLast? = some path
  still : stream.ended = false → stream.flowing = true → c.fetching = none ∧ c.saves = []
  fetch : stream.ended = false → c.fetching.isSome → c.saves = []
  fetch_clip : ∀ key, c.fetching = some key → key ≠ wiki_dump_resume_pos
  ended : stream.ended = true → stream.rest = [] ∧ c.blockResourceCache = [] ∧
    ∀ key, c.fetching = some key → ipfs.isLong key = false

theorem Reading.resume (h : Reading ipfs longs held c stream)
    (hstill : stream.ended = false → c.fetching = none ∧ c.saves = []) :
    Reading ipfs longs held c.resume { stream with flowing := true } where
  reads := by rw [Collector.resume, h.reads, Option.map_some]
  order := h.order
  one_save := h.one_save
  save_prev := h.save_prev
  save_path := h.save_path
  still := fun hended _ => hstill hended
  fetch := h.fetch
  fetch_clip := h.fetch_clip
  ended := h.ended

/-- The stream delivers a key. -/
theorem Reading.onData {rest : List JsString} (h : Reading ipfs longs held c stream)
    (hrest : stream.rest = key :: rest) (hflowing : stream.flowing = true) :
    ∃ stream', Reading ipfs longs held (c.onData key { stream with rest := rest })
      stream' := by
  have hended : stream.ended = false := by
    rw [← Bool.not_eq_true]
    intro hended
    rw [(h.ended hended).1] at hrest
    exact absurd hrest (by simp)
  obtain ⟨hfetching, hsaves⟩ := h.still hended hflowing
  have horder := h.order
  rw [hrest, hfetching] at horder
  unfold Collector.onData
  by_cases hkey : key ≠ wiki_dump_resume_pos
  · rw [if_pos hkey]
    refine ⟨{ stream with rest := rest, flowing := false }, rfl, ?_, h.one_save,
      h.save_prev, h.save_path, ?_, fun _ _ => hsaves, ?_, ?_⟩
    · rw [horder]
      simp [Ipfs.longs, List.filter_cons]
      split <;> rfl
    · exact fun _ hflow => absurd hflow (by simp)
    · rintro k hk
      obtain rfl := Option.some.inj hk
      exact hkey
    · intro h'
      exact absurd h' (by simp [hended])
  · rw [if_neg hkey]
    have hshort : ipfs.isLong key = false := by
      rw [not_not.mp hkey]
      exact isLong_resume_pos
    refine ⟨{ stream with rest := rest }, rfl, ?_, h.one_save, h.save_prev, h.save_path,
      fun _ _ => ⟨hfetching, hsaves⟩, fun _ _ => hsaves, h.fetch_clip, ?_⟩
    · rw [horder, hfetching]
      simp [Ipfs.longs, hshort]
    · intro h'
      exact absurd h' (by simp [hended])

/-- A file that does not belong into a block is passed over. -/
theorem onIpfsInfo_short (hkey : key ≠ wiki_dump_resume_pos)
    (hshort : ipfs.isLong key = false) :
    c.onIpfsInfo gGroup (ipfs.get key) = c.resume := by
  rw [Ipfs.isLong, decide_eq_true hkey, Bool.true_and] at hshort
  unfold Collector.onIpfsInfo
  split at hshort
  · rename_i file hget
    unfold Collector.onIpfsFileContent
    split at hshort
    · rename_i length hcontent
      unfold Collector.onContent
      rw [if_neg (of_decide_eq_false hshort)]
    · rfl
  · rfl

theorem onIpfsInfo_long (gGroup : JsString) (c : Collector) (hlong : ipfs.isLong key = true) :
    ∃ length > minArticleSize,
      c.onIpfsInfo gGroup (ipfs.get key) = c.onContent gGroup key length := by
  rw [Ipfs.isLong, Bool.and_eq_true] at hlong
  obtain ⟨-, hlong⟩ := hlong
  split at hlong
  · rename_i file hget
    split at hlong
    · rename_i length hcontent
      refine ⟨length, of_decide_eq_true hlong, ?_⟩
      rw [hget]
      unfold Collector.onIpfsInfo Collector.onIpfsFileContent
      dsimp only
      rw [hcontent, ipfs.path_eq hget]
    · exact absurd hlong (by simp)
  · exact absurd hlong (by simp)

/-- A clip that belongs into no block is no longer fetched. -/
theorem Reading.drop (h : Reading ipfs longs held c stream) (hfetching : c.fetching = some key)
    (hshort : ipfs.isLong key = false) :
    Reading ipfs longs held { c with fetching := none } stream where
  reads := h.reads
  order := by
    have horder := h.order
    rw [hfetching] at horder
    simpa [Ipfs.longs, hshort] using horder
  one_save := h.one_save
  save_prev := h.save_prev
  save_path := h.save_path
  still := fun hended hflowing => ⟨rfl, (h.still hended hflowing).2⟩
  fetch := fun _ hfetching => absurd hfetching (by simp)
  fetch_clip := fun _ hfetching => absurd hfetching (by simp)
  ended := fun hended => ⟨(h.ended hended).1, (h.ended hended).2.1,
    fun _ hfetching => absurd hfetching (by simp)⟩

/-- The run goes on without a clip that belongs into no block. -/
theorem Reading.pass (h : Reading ipfs longs held c stream) (hfetching : c.fetching = some key)
    (hshort : ipfs.isLong key = false) :
    Reading ipfs longs held (Collector.resume { c with fetching := none })
      { stream with flowing := true } := by
  refine (h.drop hfetching hshort).resume (fun hended => ⟨rfl, ?_⟩)
  exact h.fetch hended (by simp [hfetching])

/-- IPFS answers. -/
theorem Reading.got (h : Reading ipfs longs held c stream) (hfetching : c.fetching = some key) :
    ∃ stream', Reading ipfs longs held
      (Collector.onIpfsInfo gGroup (ipfs.get key) { c with fetching := none }) stream' := by
  by_cases hlong : ipfs.isLong key = true
  · have hended : stream.ended = false := by
      rw [← Bool.not_eq_true]
      intro hended
      rw [(h.ended hended).2.2 key hfetching] at hlong
      exact absurd hlong (by simp)
    have hflowing : stream.flowing ≠ true := by
      intro hflowing
      rw [(h.still hended hflowing).1] at hfetching
      exact absurd hfetching (by simp)
    have hsaves : c.saves = [] := h.fetch hended (by simp [hfetching])
    have horder := h.order
    rw [hfetching, hsaves] at horder
    obtain ⟨length, hlength, heq⟩ := onIpfsInfo_long gGroup { c with fetching := none } hlong
    rw [heq, Collector.onContent, if_pos hlength]
    dsimp only
    split
    · -- the block is full
      refine ⟨stream, h.reads, ?_, ?_, ?_, ?_, ?_, ?_, ?_, ?_⟩
      all_goals simp only [Collector.writeBlock, hsaves]
      · rw [horder]
        simp [Ipfs.longs, hlong]
      · simp
      · simp
      · simp
      · exact fun _ hflow => absurd hflow hflowing
      · simp
      · simp
      · exact fun h' => absurd h' (by simp [hended])
    · refine ⟨{ stream with flowing := true }, ?_, ?_, ?_, ?_, ?_, ?_, ?_, ?_, ?_⟩
      · simp [Collector.resume, h.reads]
      all_goals simp only [Collector.resume, hsaves]
      · rw [horder]
        simp [Ipfs.longs, hlong]
      · simp
      · simp
      · simp
      · simp
      · simp
      · simp
      · exact fun h' => absurd h' (by simp [hended])
  · rw [Bool.not_eq_true] at hlong
    rw [onIpfsInfo_short (h.fetch_clip key hfetching) hlong]
    exact ⟨_, h.pass hfetching hlong⟩

/-- The stream ends, and what waits is added. -/
theorem Reading.streamEnd (h : Reading ipfs longs held c stream) (hrest : stream.rest = [])
    (hended : stream.ended = false)
    (hready : stream.flowing = true ∨ c.fetching.isSome = true)
    (hshort : ∀ key, c.fetching = some key → ipfs.isLong key = false) :
    Reading ipfs longs held
      (Collector.writeBlock gGroup none
        { c with stream := some { stream with ended := true } })
      { stream with ended := true } := by
  have hsaves : c.saves = [] := by
    rcases hready with hflowing | hfetching
    · exact (h.still hended hflowing).2
    · exact h.fetch hended hfetching
  have hnone : ipfs.longs c.fetching.toList = [] := by
    cases hfetching : c.fetching with
    | none => rfl
    | some key => simp [Ipfs.longs, hshort key hfetching]
  have horder := h.order
  rw [hsaves, hnone, hrest] at horder
  refine ⟨rfl, ?_, ?_, ?_, ?_, ?_, ?_, h.fetch_clip, ?_⟩
  all_goals simp only [Collector.writeBlock, hsaves]
  · rw [horder, hnone, hrest]
    simp [Ipfs.longs]
  · simp
  · simp
  · simp
  · simp
  · simp
  · exact fun _ => ⟨hrest, trivial, hshort⟩

/-- The puts do not matter to the reading. -/
theorem Reading.put (h : Reading ipfs longs held c stream)
    (puts : List (JsString × JsString)) :
    Reading ipfs longs held { c with puts := puts } stream :=
  ⟨h.reads, h.order, h.one_save, h.save_prev, h.save_path, h.still, h.fetch, h.fetch_clip,
    h.ended⟩

/-- A block is in IPFS. -/
theorem Reading.added {save : Save} (h : Reading ipfs longs held c stream)
    (hsaves : c.saves = [save]) (hash : JsString) :
    ∃ stream', Reading ipfs longs (held ++ save.block.resource)
      (Collector.onSaved hash save.path { c with saves := [] }) stream' := by
  have hfetching : stream.ended = false → c.fetching = none := by
    intro hended
    cases hfetching : c.fetching with
    | none => rfl
    | some key =>
        rw [h.fetch hended (by simp [hfetching])] at hsaves
        exact absurd hsaves (by simp)
  have hsaved (puts : List (JsString × JsString)) :
      Reading ipfs longs (held ++ save.block.resource)
        { c with saves := [], prevBlock := hash, puts := puts } stream := by
    refine ⟨h.reads, ?_, by simp, by simp, by simp, ?_, by simp, h.fetch_clip, h.ended⟩
    · rw [h.order, hsaves]
      simp
    · exact fun hended hflowing => ⟨(h.still hended hflowing).1, rfl⟩
  unfold Collector.onSaved
  dsimp only
  split
  · exact ⟨_, (hsaved _).resume (fun hended => ⟨hfetching hended, rfl⟩)⟩
  · exact ⟨_, hsaved _⟩

end Reading

/-! ## The databases -/

section Databases

variable {ipfs : Ipfs} {gGroup : JsString} {s s' : System} {hash prevBlock : JsString}
  {puts : List (JsString × JsString)} {chain : List BlockObject} {c : Collector}

/-- The hash is that of a block which ends with the clip. -/
def Recorded (ipfs : Ipfs) (s : System) (hash clip : JsString) : Prop :=
  clip ≠ [] ∧ ∃ block ∈ s.blocks, hash = ipfs.hashOf block ∧
    block.resource.getLast? = some clip

/-- The blocks up to `hash` hold no clip twice, and those of the last finished run. -/
structure Holds (ipfs : Ipfs) (s : System) (hash : JsString) (chain : List BlockObject) :
    Prop where
  chainTo : ChainTo ipfs s hash chain
  nodup : (clipsOf chain).Nodup
  finished : ∀ clip ∈ s.finished, ipfs.isLong clip = true → clip ∈ clipsOf chain

/-- Between runs. If a run can start, the blocks hold the first long clips of the
store. -/
structure Disk (ipfs : Ipfs) (s : System) : Prop where
  sorted : s.clips.Pairwise (· < ·)
  recorded : ∀ hash clip, hash ≠ topBlockPosition → s.dbBlock hash = some clip →
    Recorded ipfs s hash clip
  top : ∃ chain, Holds ipfs s s.top chain ∧
    (safe ipfs s .start = true → clipsOf chain <+: ipfs.longs s.clips)

/-- During a run: any hash that is or will be that of the top block leads to blocks
with the first long clips of the store, and the one put last is `prevBlock`. -/
structure Stored (ipfs : Ipfs) (s : System) (prevBlock : JsString)
    (puts : List (JsString × JsString)) (chain : List BlockObject) : Prop where
  sorted : s.clips.Pairwise (· < ·)
  recorded : ∀ hash clip, hash ≠ topBlockPosition →
    s.dbBlock hash = some clip ∨ (hash, clip) ∈ puts → Recorded ipfs s hash clip
  tops : ∀ hash, hash = s.top ∨ (topBlockPosition, hash) ∈ puts →
    ∃ chain, Holds ipfs s hash chain ∧ clipsOf chain <+: ipfs.longs s.clips
  newest : tip Prod.snd s.top
    (puts.filter (fun put => decide (put.1 = topBlockPosition))) = prevBlock
  holds : Holds ipfs s prevBlock chain

theorem Holds.mono (h : Holds ipfs s hash chain)
    (hblocks : ∀ block ∈ s.blocks, block ∈ s'.blocks) (hfinished : s'.finished = s.finished) :
    Holds ipfs s' hash chain :=
  ⟨h.chainTo.mono hblocks, h.nodup, hfinished ▸ h.finished⟩

theorem Recorded.mono {clip : JsString} (h : Recorded ipfs s hash clip)
    (hblocks : ∀ block ∈ s.blocks, block ∈ s'.blocks) : Recorded ipfs s' hash clip := by
  obtain ⟨hclip, block, hblock, hhash, hlast⟩ := h
  exact ⟨hclip, block, hblocks block hblock, hhash, hlast⟩

/-- The databases do not change with the variables. -/
theorem Stored.next (h : Stored ipfs s prevBlock puts chain) (c : Collector) :
    Stored ipfs (s.next c) prevBlock puts chain where
  sorted := h.sorted
  recorded := fun hash clip hne hput =>
    (h.recorded hash clip hne hput).mono (fun _ hblock => hblock)
  tops := by
    intro hash htop
    obtain ⟨chain, hholds, hbegin⟩ := h.tops hash htop
    exact ⟨chain, hholds.mono (fun _ hblock => hblock) rfl, hbegin⟩
  newest := h.newest
  holds := h.holds.mono (fun _ hblock => hblock) rfl

theorem nodup_of_prefix {clips held : List JsString} (hsorted : clips.Pairwise (· < ·))
    (hbegin : held <+: ipfs.longs clips) : held.Nodup := by
  refine ((hsorted.sublist List.filter_sublist).sublist hbegin.sublist).imp ?_
  rintro a b hlt rfl
  exact List.lt_irrefl _ hlt

theorem filter_top_eq_nil (hputs : ∀ put ∈ puts, put.1 ≠ topBlockPosition) :
    puts.filter (fun put => decide (put.1 = topBlockPosition)) = [] := by
  apply List.filter_eq_nil_iff.mpr
  intro put hput
  rw [decide_eq_true_eq]
  exact hputs put hput

/-- The record of a block comes from its path. -/
theorem mem_putPath {put : JsString × JsString} {path : Option JsString}
    (h : put ∈ Collector.putPath hash path) : put.1 = hash ∧ path = some put.2 ∧ put.2 ≠ [] := by
  cases path with
  | none => exact absurd h List.not_mem_nil
  | some path =>
      rw [Collector.putPath] at h
      split at h
      · rename_i hne
        rw [List.mem_singleton.mp h]
        exact ⟨rfl, rfl, hne⟩
      · exact absurd h List.not_mem_nil

/-- A block is in IPFS, and its puts are on their way. -/
theorem Stored.added {save : Save} (h : Stored ipfs s prevBlock puts chain)
    (hprev : save.block.prev = prevBlock)
    (hpath : ∀ path, save.path = some path → save.block.resource.getLast? = some path)
    (hbegin : clipsOf (chain ++ [save.block]) <+: ipfs.longs s.clips) :
    Stored ipfs { s.next c with blocks := s.blocks ++ [save.block] }
      (ipfs.hashOf save.block)
      (puts ++ (Collector.putPath (ipfs.hashOf save.block) save.path ++
        [(topBlockPosition, ipfs.hashOf save.block)]))
      (chain ++ [save.block]) := by
  have hblocks : ∀ block ∈ s.blocks, block ∈ s.blocks ++ [save.block] :=
    fun _ hblock => List.mem_append_left _ hblock
  have hnew : Holds ipfs { s.next c with blocks := s.blocks ++ [save.block] }
      (ipfs.hashOf save.block) (chain ++ [save.block]) := by
    refine ⟨h.holds.chainTo.append hprev hblocks (by simp), ?_, ?_⟩
    · exact nodup_of_prefix h.sorted hbegin
    · intro clip hclip hlong
      rw [clipsOf_append_singleton]
      exact List.mem_append_left _ (h.holds.finished clip hclip hlong)
  refine ⟨h.sorted, ?_, ?_, ?_, hnew⟩
  · intro hash clip hne hput
    rw [List.mem_append, List.mem_append, List.mem_singleton] at hput
    rcases hput with hput | hput | hput | hput
    · exact (h.recorded hash clip hne (Or.inl hput)).mono hblocks
    · exact (h.recorded hash clip hne (Or.inr hput)).mono hblocks
    · obtain ⟨hhash, hclip, hnonempty⟩ := mem_putPath hput
      exact ⟨hnonempty, save.block, by simp, hhash, hpath clip hclip⟩
    · exact absurd (congrArg Prod.fst hput) hne
  · intro hash htop
    rw [List.mem_append, List.mem_append, List.mem_singleton] at htop
    rcases htop with htop | htop | htop | htop
    · obtain ⟨chain', hholds, hbegin'⟩ := h.tops hash (Or.inl htop)
      exact ⟨chain', hholds.mono hblocks rfl, hbegin'⟩
    · obtain ⟨chain', hholds, hbegin'⟩ := h.tops hash (Or.inr htop)
      exact ⟨chain', hholds.mono hblocks rfl, hbegin'⟩
    · exact absurd (mem_putPath htop).1.symm (ipfs.hash_ne_topBlockPosition _)
    · rw [(Prod.mk.inj htop).2]
      exact ⟨_, hnew, hbegin⟩
  · have hrecord : ∀ put ∈ Collector.putPath (ipfs.hashOf save.block) save.path,
        put.1 ≠ topBlockPosition := by
      intro put hput
      rw [(mem_putPath hput).1]
      exact ipfs.hash_ne_topBlockPosition _
    have hnone := filter_top_eq_nil hrecord
    rw [List.filter_append, List.filter_append, hnone, List.nil_append,
      List.filter_cons_of_pos (by simp), List.filter_nil, tip_append_singleton]

/-- The top on the disk behind a put. -/
theorem top_put (s : System) (c : Collector) (key value : JsString) :
    System.top
      { s.next c with dbBlock := fun k => if k = key then some value else s.dbBlock k } =
      if key = topBlockPosition then value else s.top := by
  by_cases hkey : key = topBlockPosition
  · simp [System.top, hkey]
  · simp [System.top, hkey, Ne.symm hkey]

/-- The top put last stays the same when the first put of its key reaches the disk. -/
theorem newest_put {top key value : JsString} {first later : List (JsString × JsString)}
    (hfirst : ∀ earlier ∈ first, earlier.1 ≠ key) :
    tip Prod.snd (if key = topBlockPosition then value else top)
        ((first ++ later).filter (fun put => decide (put.1 = topBlockPosition))) =
      tip Prod.snd top ((first ++ (key, value) :: later).filter
        (fun put => decide (put.1 = topBlockPosition))) := by
  rw [List.filter_append, List.filter_append]
  by_cases hkey : key = topBlockPosition
  · -- no earlier put is one of the top
    have hnone := filter_top_eq_nil (hkey ▸ hfirst)
    rw [hnone, List.filter_cons_of_pos (by simpa using hkey), List.nil_append,
      List.nil_append, tip_cons, if_pos hkey]
  · rw [List.filter_cons_of_neg (by simpa using hkey), if_neg hkey]

/-- A put reaches the disk. -/
theorem Stored.put {key value : JsString} {first later : List (JsString × JsString)}
    (h : Stored ipfs s prevBlock (first ++ (key, value) :: later) chain)
    (hfirst : ∀ earlier ∈ first, earlier.1 ≠ key) :
    Stored ipfs
      { s.next c with dbBlock := fun k => if k = key then some value else s.dbBlock k }
      prevBlock (first ++ later) chain := by
  have hput : ∀ {put}, put ∈ first ++ later → put ∈ first ++ (key, value) :: later := by
    intro put hput
    rcases List.mem_append.mp hput with hput | hput
    · exact List.mem_append_left _ hput
    · exact List.mem_append_right _ (List.mem_cons_of_mem _ hput)
  have hself : (key, value) ∈ first ++ (key, value) :: later := by simp
  refine ⟨h.sorted, ?_, ?_, ?_, h.holds.mono (fun _ hblock => hblock) rfl⟩
  · intro hash clip hne hdb
    have hrecorded : Recorded ipfs s hash clip := by
      rcases hdb with hdb | hdb
      · dsimp only at hdb
        split at hdb
        · rename_i hhash
          obtain rfl := Option.some.inj hdb
          exact h.recorded hash value hne (Or.inr (hhash ▸ hself))
        · exact h.recorded hash clip hne (Or.inl hdb)
      · exact h.recorded hash clip hne (Or.inr (hput hdb))
    exact hrecorded.mono (fun _ hblock => hblock)
  · intro hash hhash
    have hold : hash = s.top ∨ (topBlockPosition, hash) ∈ first ++ (key, value) :: later := by
      rcases hhash with hhash | hhash
      · rw [top_put] at hhash
        split at hhash
        · rename_i hkey
          rw [hhash, ← hkey]
          exact Or.inr hself
        · exact Or.inl hhash
      · exact Or.inr (hput hhash)
    obtain ⟨chain', hholds, hbegin⟩ := h.tops hash hold
    exact ⟨chain', hholds.mono (fun _ hblock => hblock) rfl, hbegin⟩
  · rw [top_put, newest_put hfirst]
    exact h.newest

/-- The process dies. -/
theorem Stored.crash (h : Stored ipfs s prevBlock puts chain) :
    Disk ipfs { s with process := none } where
  sorted := h.sorted
  recorded := fun hash clip hne hdb =>
    (h.recorded hash clip hne (Or.inl hdb)).mono (fun _ hblock => hblock)
  top := by
    obtain ⟨chain, hholds, hbegin⟩ := h.tops s.top (Or.inl rfl)
    exact ⟨chain, hholds.mono (fun _ hblock => hblock) rfl, fun _ => hbegin⟩

/-- The run is over, and the blocks hold every long clip. -/
theorem Stored.exit (h : Stored ipfs s prevBlock [] chain)
    (hall : ipfs.longs s.clips = clipsOf chain) :
    Disk ipfs { s with process := none, finished := s.clips } where
  sorted := h.sorted
  recorded := fun hash clip hne hdb =>
    (h.recorded hash clip hne (Or.inl hdb)).mono (fun _ hblock => hblock)
  top := by
    have htop : s.top = prevBlock := h.newest
    refine ⟨chain, ⟨?_, h.holds.nodup, ?_⟩, fun _ => ?_⟩
    · have hchain : ChainTo ipfs { s with process := none, finished := s.clips }
          prevBlock chain := h.holds.chainTo.mono (fun _ hblock => hblock)
      rw [← htop] at hchain
      exact hchain
    · intro clip hclip hlong
      rw [← hall]
      exact List.mem_filter.mpr ⟨hclip, hlong⟩
    · rw [← hall]

/-- The hash of the top block is not the key under which it stands. -/
theorem ChainTo.ne_topBlockPosition (h : ChainTo ipfs s hash chain) :
    hash ≠ topBlockPosition := by
  rintro rfl
  rcases List.eq_nil_or_concat' chain with rfl | ⟨init, last, rfl⟩
  · have hne : Genesis ≠ topBlockPosition := by decide
    exact hne h.tip
  · have htip := h.tip
    rw [tip_append_singleton] at htip
    exact ipfs.hash_ne_topBlockPosition _ htip

/-- The clip on record for the top block is the last one of the blocks. -/
theorem Disk.last {value clip : JsString} (h : Disk ipfs s)
    (hvalue : s.dbBlock topBlockPosition = some value) (hclip : s.dbBlock value = some clip)
    (hchain : ChainTo ipfs s s.top chain) :
    clip ≠ [] ∧ (clipsOf chain).getLast? = some clip ∧
      ∃ block ∈ s.blocks, value = ipfs.hashOf block ∧ block.resource.getLast? = some clip := by
  rw [top_of_some hvalue] at hchain
  obtain ⟨hne, block, hblock, rfl, hlast⟩ :=
    h.recorded value clip hchain.ne_topBlockPosition hclip
  obtain ⟨init, rfl⟩ := hchain.eq_append
  refine ⟨hne, ?_, block, hblock, rfl, hlast⟩
  rw [clipsOf_append_singleton, List.getLast?_append, hlast, Option.some_or]

/-- Between runs, a clip is added where the next run finds it. -/
theorem Disk.addClip {key : JsString} (h : Disk ipfs s)
    (hsafe : safe ipfs s (.addClip key) = true) :
    Disk ipfs { s with clips := insertClip key s.clips } where
  sorted := insertClip_sorted h.sorted
  recorded := fun hash clip hne hdb =>
    (h.recorded hash clip hne hdb).mono (fun _ hblock => hblock)
  top := by
    obtain ⟨chain, hholds, hbegin⟩ := h.top
    refine ⟨chain, hholds.mono (fun _ hblock => hblock) rfl, ?_⟩
    intro hstart
    have hbegin := hbegin hstart
    show clipsOf chain <+: ipfs.longs (insertClip key s.clips)
    simp only [safe, Bool.or_eq_true, Bool.not_eq_true', List.contains_iff_mem] at hsafe
    rcases hsafe with (hshort | hmem) | hbehind
    · rw [longs_insertClip_short hshort]
      exact hbegin
    · rw [insertClip_mem h.sorted hmem]
      exact hbegin
    · apply prefix_longs_insertClip h.sorted hbegin
      simp only [safe] at hstart
      cases hvalue : s.dbBlock topBlockPosition with
      | none =>
          rw [hholds.chainTo.eq_nil hvalue]
          simp [clipsOf]
      | some value =>
          simp only [hvalue] at hstart hbehind
          obtain ⟨clip, hclip⟩ := Option.isSome_iff_exists.mp hstart
          simp only [hclip, decide_eq_true_eq] at hbehind
          obtain ⟨-, hlast, -⟩ := h.last hvalue hclip hholds.chainTo
          obtain ⟨init, hinit⟩ := List.getLast?_eq_some_iff.mp hlast
          have hsorted : (clipsOf chain).Pairwise (· < ·) :=
            (h.sorted.sublist List.filter_sublist).sublist hbegin.sublist
          rw [hinit] at hsorted ⊢
          intro k hk
          rcases List.mem_append.mp hk with hk | hk
          · exact List.lt_trans
              ((List.pairwise_append.mp hsorted).2.2 k hk clip List.mem_cons_self) hbehind
          · rw [List.mem_singleton.mp hk]
            exact hbehind

end Databases

/-! ## Runs -/

section Runs

variable {ipfs : Ipfs} {gGroup : JsString} {s t : System} {c : Collector}

/-- What holds during a run. -/
def Running (ipfs : Ipfs) (s : System) (c : Collector) : Prop :=
  ∃ stream chain, Stored ipfs s c.prevBlock c.puts chain ∧
    Reading ipfs (ipfs.longs s.clips) (clipsOf chain) c stream

/-- What holds in every state. -/
def Inv (ipfs : Ipfs) (s : System) : Prop :=
  match s.process with
  | none => Disk ipfs s
  | some c => Running ipfs s c

theorem inv_empty : Inv ipfs System.empty := by
  refine ⟨List.Pairwise.nil, ?_, [], ⟨chainTo_nil, ?_, ?_⟩, fun _ => ?_⟩
  · intro hash clip _ hdb
    exact absurd hdb (by simp [System.empty])
  · exact List.nodup_nil
  · exact fun clip hclip => absurd hclip List.not_mem_nil
  · exact List.nil_prefix

/-- The run begins to read. -/
theorem Stored.startReadClips {prevBlock clip : JsString} {keys : List JsString}
    {chain : List BlockObject} (h : Stored ipfs s prevBlock [] chain)
    (hkeys : (if clip ≠ [] then s.clips.filter (fun key => decide (clip < key)) else s.clips) =
      keys)
    (hlongs : ipfs.longs s.clips = clipsOf chain ++ ipfs.longs keys)
    (hc : c = Collector.startReadClips s.clips
      { Collector.new with prevBlock := prevBlock, lastCollectedClip := clip }) :
    Running ipfs (s.next c) c ∧ c.stream = some ⟨keys, true, false⟩ := by
  subst hc hkeys
  refine ⟨⟨_, chain, h.next _, ⟨rfl, ?_, ?_, ?_, ?_, ?_, ?_, ?_, ?_⟩⟩, rfl⟩
  · show ipfs.longs s.clips = _
    rw [hlongs]
    simp [Collector.startReadClips, Collector.new, Ipfs.longs]
  all_goals simp [Collector.startReadClips, Collector.new]

theorem Disk.stored {chain : List BlockObject} (h : Disk ipfs s)
    (hholds : Holds ipfs s s.top chain) (hbegin : clipsOf chain <+: ipfs.longs s.clips) :
    Stored ipfs s s.top [] chain := by
  refine ⟨h.sorted, ?_, ?_, rfl, hholds⟩
  · intro hash clip hne hdb
    rcases hdb with hdb | hdb
    · exact h.recorded hash clip hne hdb
    · exact absurd hdb List.not_mem_nil
  · intro hash htop
    rcases htop with rfl | htop
    · exact ⟨chain, hholds, hbegin⟩
    · exact absurd htop List.not_mem_nil

/-- A run starts behind the last clip of the top block. -/
theorem Disk.start (h : Disk ipfs s) (hsafe : safe ipfs s .start = true)
    (hc : c = Collector.start s.clips s.dbBlock) :
    Running ipfs (s.next c) c ∧ ContinuesBehindTop ipfs s (s.next c) := by
  obtain ⟨chain, hholds, hbegin⟩ := h.top
  have hbegin := hbegin hsafe
  have hstored := h.stored hholds hbegin
  simp only [safe] at hsafe
  unfold Collector.start at hc
  cases hvalue : s.dbBlock topBlockPosition with
  | none =>
      rw [top_of_none hvalue] at hstored
      simp only [hvalue] at hc
      have hchain : chain = [] := hholds.chainTo.eq_nil hvalue
      have hlongs : ipfs.longs s.clips = clipsOf chain ++ ipfs.longs s.clips := by
        simp [hchain, clipsOf]
      have hkeys : (if ([] : JsString) ≠ [] then
          s.clips.filter (fun key => decide ([] < key)) else s.clips) = s.clips :=
        if_neg (by simp)
      obtain ⟨hrunning, hstream⟩ := hstored.startReadClips hkeys hlongs hc
      exact ⟨hrunning, c, _, rfl, hstream, Or.inl ⟨hvalue, rfl⟩⟩
  | some value =>
      simp only [hvalue] at hsafe hc
      obtain ⟨clip, hclip⟩ := Option.isSome_iff_exists.mp hsafe
      simp only [hclip] at hc
      obtain ⟨hne, hlast, block, hblock, rfl, hblockLast⟩ :=
        h.last hvalue hclip hholds.chainTo
      rw [top_of_some hvalue] at hstored
      obtain ⟨rest, hrest⟩ := hbegin
      have hlongs : ipfs.longs s.clips = clipsOf chain ++
          ipfs.longs (s.clips.filter (fun key => decide (clip < key))) := by
        rw [longs_behind h.sorted hrest.symm hlast, hrest]
      obtain ⟨hrunning, hstream⟩ := hstored.startReadClips (if_pos hne) hlongs hc
      exact ⟨hrunning, c, _, rfl, hstream,
        Or.inr ⟨block, hblock, clip, hvalue, hblockLast, rfl⟩⟩

theorem Inv.disk (h : Inv ipfs s) (hprocess : s.process.isNone = true) : Disk ipfs s := by
  rw [Inv, Option.isNone_iff_eq_none.mp hprocess] at h
  exact h

theorem Inv.running (h : Inv ipfs s) (hprocess : s.process = some c) : Running ipfs s c := by
  rw [Inv, hprocess] at h
  exact h

/-- What the handlers of a file leave alone. -/
theorem onIpfsInfo_frame (gGroup : JsString) (result : List IpfsFile) (c : Collector) :
    (c.onIpfsInfo gGroup result).prevBlock = c.prevBlock ∧
      (c.onIpfsInfo gGroup result).puts = c.puts := by
  unfold Collector.onIpfsInfo Collector.onIpfsFileContent Collector.onContent
  split
  · split
    · split
      · dsimp only
        split <;> exact ⟨rfl, rfl⟩
      · exact ⟨rfl, rfl⟩
    · exact ⟨rfl, rfl⟩
  · exact ⟨rfl, rfl⟩

/-- The variables change, and neither `prevBlock` nor the puts. -/
theorem Running.next {c' : Collector} (h : Running ipfs s c)
    (hprevBlock : c'.prevBlock = c.prevBlock) (hputs : c'.puts = c.puts)
    (hreading : ∀ {held stream}, c.stream = some stream →
      Reading ipfs (ipfs.longs s.clips) held c stream →
      ∃ stream', Reading ipfs (ipfs.longs s.clips) held c' stream') :
    Inv ipfs (s.next c') := by
  obtain ⟨stream, chain, hstored, hread⟩ := h
  obtain ⟨stream', hread'⟩ := hreading hread.reads hread
  refine ⟨stream', chain, ?_, hread'⟩
  rw [hprevBlock, hputs]
  exact hstored.next c'

theorem Running.data {rest : List JsString} {key : JsString} {stream : Stream}
    (h : Running ipfs s c) (hstream : c.stream = some stream)
    (hrest : stream.rest = key :: rest) (hflowing : stream.flowing = true) :
    Inv ipfs (s.next (c.onData key { stream with rest := rest })) := by
  apply h.next
  · unfold Collector.onData
    split <;> rfl
  · unfold Collector.onData
    split <;> rfl
  · intro held stream' hstream' hread
    obtain rfl := Option.some.inj (hstream.symm.trans hstream')
    exact hread.onData hrest hflowing

theorem Running.streamEnd {stream : Stream} (h : Running ipfs s c)
    (hstream : c.stream = some stream) (hrest : stream.rest = [])
    (hended : stream.ended = false)
    (hready : stream.flowing = true ∨ c.fetching.isSome = true)
    (hshort : ∀ key, c.fetching = some key → ipfs.isLong key = false) :
    Inv ipfs (s.next (Collector.writeBlock gGroup none
      { c with stream := some { stream with ended := true } })) := by
  refine h.next rfl rfl ?_
  intro held stream' hstream' hread
  obtain rfl := Option.some.inj (hstream.symm.trans hstream')
  exact ⟨_, hread.streamEnd hrest hended hready hshort⟩

/-- What the handler of an added block makes of the two. -/
theorem onSaved_frame (hash : JsString) (path : Option JsString) (c : Collector) :
    (c.onSaved hash path).prevBlock = hash ∧ (c.onSaved hash path).puts =
      c.puts ++ (Collector.putPath hash path ++ [(topBlockPosition, hash)]) := by
  unfold Collector.onSaved
  dsimp only
  split <;> exact ⟨rfl, rfl⟩

theorem only_save {i : ℕ} {save : Save} {saves : List Save} (hone : saves.length ≤ 1)
    (hsave : saves[i]? = some save) : saves = [save] ∧ saves.eraseIdx i = [] := by
  obtain ⟨hi, hget⟩ := List.getElem?_eq_some_iff.mp hsave
  have hlen : saves.length = 1 := Nat.le_antisymm hone (Nat.zero_lt_of_lt hi)
  obtain ⟨only, rfl⟩ := List.length_eq_one_iff.mp hlen
  obtain rfl : i = 0 := Nat.lt_one_iff.mp (hlen ▸ hi)
  exact ⟨congrArg (fun x => [x]) hget, rfl⟩

/-- A block is in IPFS; it is the only one on its way. -/
theorem Running.added {i : ℕ} {save : Save} (h : Running ipfs s c)
    (hsave : c.saves[i]? = some save) :
    Inv ipfs { s.next (Collector.onSaved (ipfs.hashOf save.block) save.path
      { c with saves := c.saves.eraseIdx i }) with blocks := s.blocks ++ [save.block] } := by
  obtain ⟨stream, chain, hstored, hread⟩ := h
  obtain ⟨hsaves, herase⟩ := only_save hread.one_save hsave
  have hmem : save ∈ c.saves := List.mem_of_getElem? hsave
  obtain ⟨stream', hread'⟩ := hread.added hsaves (ipfs.hashOf save.block)
  have hbegin : clipsOf (chain ++ [save.block]) <+: ipfs.longs s.clips := by
    rw [clipsOf_append_singleton, hread'.order]
    exact List.prefix_append _ _
  have hadded := hstored.added (c := Collector.onSaved (ipfs.hashOf save.block) save.path
    { c with saves := [] }) (hread.save_prev save hmem) (hread.save_path save hmem) hbegin
  obtain ⟨hprevBlock, hputs⟩ :=
    onSaved_frame (ipfs.hashOf save.block) save.path { c with saves := [] }
  rw [herase]
  refine ⟨stream', chain ++ [save.block], ?_, ?_⟩
  · rw [hprevBlock, hputs]
    exact hadded
  · rw [clipsOf_append_singleton]
    exact hread'

theorem Running.put {i : ℕ} {key value : JsString} (h : Running ipfs s c)
    (hput : c.puts[i]? = some (key, value))
    (hfirst : ∀ earlier ∈ c.puts.take i, earlier.1 ≠ key) :
    Inv ipfs { s.next { c with puts := c.puts.eraseIdx i } with
      dbBlock := fun k => if k = key then some value else s.dbBlock k } := by
  obtain ⟨stream, chain, hstored, hread⟩ := h
  obtain ⟨hi, hget⟩ := List.getElem?_eq_some_iff.mp hput
  have hputs : c.puts = c.puts.take i ++ (key, value) :: c.puts.drop (i + 1) := by
    rw [← hget, ← List.drop_eq_getElem_cons hi, List.take_append_drop]
  rw [hputs] at hstored
  refine ⟨stream, chain, ?_, hread.put _⟩
  rw [List.eraseIdx_eq_take_drop_succ]
  exact hstored.put hfirst

/-- A run that is over has put every long clip into a block. -/
theorem Running.exit (h : Running ipfs s c) (hdone : c.done = true) :
    Disk ipfs { s with process := none, finished := s.clips } := by
  obtain ⟨stream, chain, hstored, hread⟩ := h
  simp only [Collector.done, hread.reads, Bool.and_eq_true, List.isEmpty_iff,
    Option.isNone_iff_eq_none] at hdone
  obtain ⟨⟨⟨hended, hfetching⟩, hsaves⟩, hputs⟩ := hdone
  obtain ⟨hrest, hcache, -⟩ := hread.ended hended
  rw [hputs] at hstored
  apply hstored.exit
  rw [hread.order, hsaves, hcache, hfetching, hrest]
  simp [Ipfs.longs]

/-- **An event that does no harm keeps the invariant.** -/
theorem inv_step {e : Event} (h : Inv ipfs s) (hsafe : safe ipfs s e = true)
    (hstep : step ipfs gGroup s e = some t) : Inv ipfs t := by
  cases e with
  | addClip key =>
      simp only [step] at hstep
      split at hstep
      · rename_i hprocess
        obtain rfl := Option.some.inj hstep
        have hdisk := (h.disk hprocess.1).addClip hsafe
        rw [Inv]
        split
        · exact hdisk
        · rename_i c hc
          have hnone : s.process = none := Option.isNone_iff_eq_none.mp hprocess.1
          exact absurd (hc.symm.trans hnone) (by simp)
      · cases hstep
  | start =>
      simp only [step] at hstep
      split at hstep
      · rename_i hprocess
        obtain rfl := Option.some.inj hstep
        exact ((h.disk hprocess).start hsafe rfl).1
      · cases hstep
  | data =>
      simp only [step, Option.bind_eq_bind, Option.bind_eq_some_iff] at hstep
      obtain ⟨c, hc, stream, hstream, hstep⟩ := hstep
      split at hstep
      · rename_i key rest hrest
        split at hstep
        · rename_i hflowing
          obtain rfl := Option.some.inj hstep
          exact (h.running hc).data hstream hrest hflowing
        · cases hstep
      · cases hstep
  | got =>
      simp only [step, Option.bind_eq_bind, Option.bind_eq_some_iff] at hstep
      obtain ⟨c, hc, path, hfetching, hstep⟩ := hstep
      obtain rfl := Option.some.inj hstep
      obtain ⟨hprevBlock, hputs⟩ := onIpfsInfo_frame gGroup (ipfs.get path)
        { c with fetching := none }
      exact (h.running hc).next hprevBlock hputs (fun _ hread => hread.got hfetching)
  | getFailed =>
      simp only [step, Option.bind_eq_bind, Option.bind_eq_some_iff] at hstep
      obtain ⟨c, hc, path, hfetching, hstep⟩ := hstep
      obtain rfl := Option.some.inj hstep
      simp only [safe, hc, hfetching, Bool.not_eq_true'] at hsafe
      exact (h.running hc).next rfl rfl (fun _ hread => ⟨_, hread.pass hfetching hsafe⟩)
  | streamEnd =>
      simp only [step, Option.bind_eq_bind, Option.bind_eq_some_iff] at hstep
      obtain ⟨c, hc, stream, hstream, hstep⟩ := hstep
      split at hstep
      · rename_i hready
        obtain ⟨hrest, hended, hready⟩ := hready
        obtain rfl := Option.some.inj hstep
        apply (h.running hc).streamEnd hstream hrest hended hready
        intro key hfetching
        simpa only [safe, hc, hfetching, Bool.not_eq_true'] using hsafe
      · cases hstep
  | added i =>
      simp only [step, Option.bind_eq_bind, Option.bind_eq_some_iff] at hstep
      obtain ⟨c, hc, save, hsave, hstep⟩ := hstep
      obtain rfl := Option.some.inj hstep
      exact (h.running hc).added hsave
  | put i =>
      simp only [step, Option.bind_eq_bind, Option.bind_eq_some_iff] at hstep
      obtain ⟨c, hc, ⟨key, value⟩, hput, hstep⟩ := hstep
      dsimp only at hstep
      split at hstep
      · rename_i hfirst
        obtain rfl := Option.some.inj hstep
        exact (h.running hc).put hput hfirst
      · cases hstep
  | crash =>
      simp only [step] at hstep
      split at hstep
      · rename_i hprocess
        obtain rfl := Option.some.inj hstep
        obtain ⟨c, hc⟩ := Option.isSome_iff_exists.mp hprocess
        obtain ⟨stream, chain, hstored, -⟩ := h.running hc
        exact hstored.crash
      · cases hstep
  | exit =>
      simp only [step, Option.bind_eq_bind, Option.bind_eq_some_iff] at hstep
      obtain ⟨c, hc, hstep⟩ := hstep
      split at hstep
      · rename_i hdone
        obtain rfl := Option.some.inj hstep
        exact (h.running hc).exit hdone
      · cases hstep

/-- The blocks of the top hold what the invariant says, during a run and between runs. -/
theorem Inv.holds (h : Inv ipfs s) : ∃ chain, Holds ipfs s s.top chain := by
  cases hprocess : s.process with
  | none =>
      obtain ⟨chain, hholds, -⟩ := (h.disk (by simp [hprocess])).top
      exact ⟨chain, hholds⟩
  | some c =>
      obtain ⟨_, _, hstored, -⟩ := h.running hprocess
      obtain ⟨chain, hholds, -⟩ := hstored.tops s.top (Or.inl rfl)
      exact ⟨chain, hholds⟩

theorem Inv.holdsFinished (h : Inv ipfs s) : HoldsFinished ipfs s := by
  obtain ⟨chain, hholds⟩ := h.holds
  refine ⟨⟨chain, hholds.chainTo⟩, ?_⟩
  intro chain' hchain' clip hclip hlong
  rw [hchain'.unique hholds.chainTo]
  exact List.count_eq_one_of_mem hholds.nodup (hholds.finished clip hclip hlong)

/-- **Along runs whose events do no harm, interrupted or finished, the blocks hold each
long clip of the last finished run once, and the next run goes on behind the last clip
of the top block.** -/
theorem collected_in_order {events : List Event}
    (hsafe : Along (step ipfs gGroup) (fun s e => safe ipfs s e = true) System.empty events)
    (hrun : run (step ipfs gGroup) System.empty events = some s) :
    HoldsFinished ipfs s ∧ ∀ t, safe ipfs s .start = true →
      step ipfs gGroup s .start = some t → ContinuesBehindTop ipfs s t := by
  have hinv : Inv ipfs s :=
    invariant (fun _ _ _ h hok hstep => inv_step h hok hstep) inv_empty hsafe hrun
  refine ⟨hinv.holdsFinished, ?_⟩
  intro t hstart hstep
  simp only [step] at hstep
  split at hstep
  · rename_i hprocess
    obtain rfl := Option.some.inj hstep
    exact ((hinv.disk hprocess).start hstart rfl).2
  · cases hstep

/-! ### A store with two clips -/

/-- An IPFS with two files; the first fills a block, the second does not. -/
def twoFiles : Ipfs where
  get path :=
    if path = units "a" then [⟨path, some OneBlockSize⟩]
    else if path = units "b" then [⟨path, some 200⟩]
    else []
  hash text := units "Qm" ++ text
  path_eq := by
    intro path file hget
    split at hget
    · rw [← (List.cons.inj hget).1]
    · split at hget
      · rw [← (List.cons.inj hget).1]
      · exact absurd hget (by simp)
  hash_injective := List.append_right_injective _
  hash_ne_Genesis := by
    intro text h
    exact absurd (congrArg List.head? h) (by simp [Genesis, units])
  hash_ne_topBlockPosition := by
    intro text h
    exact absurd (congrArg List.head? h) (by simp [topBlockPosition, units])

/-- The first clip fills a block, the process dies, and the second clip is added. -/
def interrupted : List Event :=
  [.addClip (units "a"), .start, .data, .got, .added 0, .put 0, .put 0, .crash,
    .addClip (units "b")]

/-- A run over one clip that does not fill a block. -/
def finishing : List Event :=
  [.start, .data, .got, .streamEnd, .added 0, .put 0, .exit]

/-- The stream ends while the last clip is fetched. -/
def endsEarly : List Event :=
  [.start, .data, .streamEnd, .got, .added 0, .put 0, .exit]

theorem collected_in_order_two_files :
    (∃ s t, run (step twoFiles []) System.empty interrupted = some s ∧
      step twoFiles [] s .start = some t ∧ ContinuesBehindTop twoFiles s t) ∧
    ∃ s, run (step twoFiles []) System.empty (interrupted ++ finishing) = some s ∧
      s.finished = [units "a", units "b"] ∧ HoldsFinished twoFiles s := by
  constructor
  · have hnext : ((run (step twoFiles []) System.empty interrupted).any (fun s =>
        safe twoFiles s .start && (step twoFiles [] s .start).isSome)) = true := by
      decide
    obtain ⟨s, hs, hnext⟩ := (Option.any_eq_true _ _).mp hnext
    obtain ⟨hstart, hstep⟩ := Bool.and_eq_true_iff.mp hnext
    obtain ⟨t, ht⟩ := Option.isSome_iff_exists.mp hstep
    exact ⟨s, t, hs, ht, (collected_in_order (by decide) hs).2 t hstart ht⟩
  · have hfinished : (run (step twoFiles []) System.empty
        (interrupted ++ finishing)).map System.finished =
        some [units "a", units "b"] := by
      decide
    obtain ⟨s, hs, hfinished⟩ := Option.map_eq_some_iff.mp hfinished
    exact ⟨s, hs, hfinished, (collected_in_order (by decide) hs).1⟩

/-- After a finished run the next one does not read, and a clip is lost when the stream
ends before the file is there. -/
theorem finished_run_is_the_last :
    (∃ s t, run (step twoFiles []) System.empty
        (.addClip (units "b") :: finishing) = some s ∧
      step twoFiles [] s .start = some t ∧ ¬ ContinuesBehindTop twoFiles s t) ∧
    ∃ s, run (step twoFiles []) System.empty
        (.addClip (units "b") :: endsEarly) = some s ∧ ¬ HoldsFinished twoFiles s := by
  constructor
  · have hnext : ((run (step twoFiles []) System.empty
        (.addClip (units "b") :: finishing)).bind (fun s => step twoFiles [] s .start)).map
          (fun t => t.process.map (fun c => c.stream.isNone)) = some (some true) := by
      decide
    obtain ⟨t, hnext, hstream⟩ := Option.map_eq_some_iff.mp hnext
    obtain ⟨s, hs, ht⟩ := Option.bind_eq_some_iff.mp hnext
    refine ⟨s, t, hs, ht, ?_⟩
    rintro ⟨c, stream, hc, hsome, -⟩
    rw [hc, Option.map_some, hsome] at hstream
    exact absurd hstream (by simp)
  · have hlost : (run (step twoFiles []) System.empty
        (.addClip (units "b") :: endsEarly)).map (fun s => (s.finished, s.blocks, s.top)) =
        some ([units "b"], [⟨Genesis, [], 0, []⟩],
          twoFiles.hashOf ⟨Genesis, [], 0, []⟩) := by
      decide
    obtain ⟨s, hs, hlost⟩ := Option.map_eq_some_iff.mp hlost
    simp only [Prod.mk.injEq] at hlost
    obtain ⟨hfinished, hblocks, htop⟩ := hlost
    refine ⟨s, hs, ?_⟩
    rintro ⟨-, hholds⟩
    have hchain : ChainTo twoFiles s s.top [⟨Genesis, [], 0, []⟩] :=
      ⟨by simp [hblocks], ⟨rfl, trivial⟩, htop.symm⟩
    have hcount := hholds _ hchain (units "b") (by simp [hfinished]) (by decide)
    exact absurd hcount (by simp [clipsOf])

end Runs

end WaiNative.RepoIpfsWiki
