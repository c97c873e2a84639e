import WaiNative.Dataset.BlockObject
import WaiNative.Theory.HashChain
import Mathlib.Algebra.BigOperators.Group.List.Basic

/-!
# `hashArchive/collect-block.js`: articles into blocks

The collector walks the directories of the archive, takes each file whose address is
its name and that is long enough, and writes a block whenever the files waiting have
`OneBlockSize` bytes together, and one more at the end. Each block holds the address
of the one before it, and `blockchain.json` lists them.

- `onNewDir_eq`: the walk is a loop over the files in the order of the visit;
- `Collected`: what the variables say between two files, about the files divided
  into those of the blocks and those that wait;
- `archive_blocks`: the blocks that a whole run writes.

`addressOfContent` (SHAKE and base 58) and the hash of the group are parameters.
-/

namespace WaiNative.HashArchive

open WaiNative.HashChain

/-! ## The collector -/

/-- What is under a directory. -/
inductive Entry
  | dir (name : JsString) (dirs : List Entry)
  | file (name content : JsString)
  | other (name : JsString)

/-- The variables of the script, and what it leaves on the disk: the directories, the
block files in the order in which they are written, and the two reports. -/
structure Collector where
  prevBlock : JsString
  blockSizeCounter : ℕ
  blockResourceCache : List JsString
  block : List JsString
  tail : JsString
  badFiles : List (JsString × JsString)
  directories : List JsString
  blockFiles : List (JsString × JsString)
  blockchainJson : Option JsString
  errorReportJson : Option JsString

def OneBlockSize : ℕ := 4 * 1024 * 1024

def minArticleSize : ℕ := 100

def DEPTH : ℕ := 3

def HASH_DIR_STEP : ℕ := 2

def blockRoot : JsString := units "/ceph/storage3/hashArchive/cnwiki/block_201903"

def gGroupMsg : JsString := units "wai text wiki cn for carrot"

def Genesis : JsString := units "Genesis"

/-- The script's start, on a disk with some directories. -/
def Collector.new (directories : List JsString) : Collector where
  prevBlock := Genesis
  blockSizeCounter := 0
  blockResourceCache := []
  block := [Genesis]
  tail := Genesis
  badFiles := []
  directories := directories
  blockFiles := []
  blockchainJson := none
  errorReportJson := none

/-- `JSON.stringify(errorReport, undefined, 2)`; a bad file is its address and its
name. -/
def errorReportStr (badFiles : List (JsString × JsString)) : JsString :=
  jsonObject (some 2) 0 [(units "badFiles", jsonArray (some 2) 1 (badFiles.map (fun bad =>
    jsonObject (some 2) 2 [(units "address", quote bad.1), (units "name", quote bad.2)])))]

/-- The directory of the block: one level for each of the first pairs of units. -/
def deepHash (blockAddress : JsString) : ℕ → JsString
  | 0 => blockRoot
  | i + 1 => deepHash blockAddress i ++
      47 :: (blockAddress.drop (i * HASH_DIR_STEP)).take HASH_DIR_STEP

/-- `if(!fs.existsSync(deepHash)) fs.mkdirSync(deepHash)`. -/
def mkdir (directories : List JsString) (path : JsString) : List JsString :=
  if path ∈ directories then directories else directories ++ [path]

def blockOut (blockAddress : JsString) : JsString :=
  deepHash blockAddress DEPTH ++ 47 :: blockAddress

section Script

variable (addressOfContent : JsString → JsString) (gGroup : JsString)

/-- `JSON.stringify(blockChain, undefined, 2)`. -/
def chainStr (block : List JsString) (tail : JsString) : JsString :=
  jsonObject (some 2) 0
    [(units "msg", quote gGroupMsg), (units "group", quote gGroup),
     (units "block", jsonArray (some 2) 1 (block.map quote)), (units "tail", quote tail)]

def addressOfBlock (block : BlockObject) : JsString :=
  addressOfContent (block.stringify (some 2))

def writeBlock (c : Collector) : Collector :=
  let block : BlockObject := ⟨c.prevBlock, gGroup, c.blockSizeCounter, c.blockResourceCache⟩
  let blockAddress := addressOfBlock addressOfContent block
  { c with
    blockSizeCounter := 0
    blockResourceCache := []
    prevBlock := blockAddress
    directories := (List.range DEPTH).foldl
      (fun directories i => mkdir directories (deepHash blockAddress (i + 1))) c.directories
    blockFiles := c.blockFiles ++ [(blockOut blockAddress, block.stringify (some 2))]
    block := c.block ++ [blockAddress]
    tail := blockAddress
    blockchainJson := some (chainStr gGroup (c.block ++ [blockAddress]) blockAddress) }

def onFileContent (content name : JsString) (c : Collector) : Collector :=
  let length := byteLength content
  if length > minArticleSize then
    let c := { c with
      blockSizeCounter := c.blockSizeCounter + length
      blockResourceCache := c.blockResourceCache ++ [name] }
    if c.blockSizeCounter ≥ OneBlockSize then writeBlock addressOfContent gGroup c else c
  else c

def onNewFile (name content : JsString) (c : Collector) : Collector :=
  let address := addressOfContent content
  if address = name then onFileContent addressOfContent gGroup content name c
  else
    { c with
      badFiles := c.badFiles ++ [(address, name)]
      errorReportJson := some (errorReportStr (c.badFiles ++ [(address, name)])) }

mutual

def onNewDir : List Entry → Collector → Collector
  | [], c => c
  | dir :: dirs, c => onNewDir dirs (onEntry dir c)

/-- The body of the loop. -/
def onEntry : Entry → Collector → Collector
  | .dir _ dirs, c => onNewDir dirs c
  | .file name content, c => onNewFile addressOfContent gGroup name content c
  | .other _, c => c

end

/-- The whole script, on the directories of `hashInputRoot`. -/
def run (directories : List JsString) (dirs : List Entry) : Collector :=
  writeBlock addressOfContent gGroup
    (onNewDir addressOfContent gGroup dirs (.new directories))

end Script

/-! ## The order of the visit -/

/-- A file of the archive. -/
structure ArchiveFile where
  name : JsString
  content : JsString

mutual

/-- The files in the order in which they are visited. -/
def visited : List Entry → List ArchiveFile
  | [] => []
  | dir :: dirs => visitedEntry dir ++ visited dirs

def visitedEntry : Entry → List ArchiveFile
  | .dir _ dirs => visited dirs
  | .file name content => [⟨name, content⟩]
  | .other _ => []

end

section Visit

variable (addressOfContent : JsString → JsString) (gGroup : JsString)

/-- One file. -/
def onFile (c : Collector) (file : ArchiveFile) : Collector :=
  onNewFile addressOfContent gGroup file.name file.content c

mutual

/-- **The walk is a loop over the files.** -/
theorem onNewDir_eq : ∀ (dirs : List Entry) (c : Collector),
    onNewDir addressOfContent gGroup dirs c =
      (visited dirs).foldl (onFile addressOfContent gGroup) c
  | [], c => by rw [onNewDir, visited, List.foldl_nil]
  | dir :: dirs, c => by
      rw [onNewDir, visited, List.foldl_append, ← onEntry_eq dir c, onNewDir_eq dirs]

theorem onEntry_eq : ∀ (dir : Entry) (c : Collector),
    onEntry addressOfContent gGroup dir c =
      (visitedEntry dir).foldl (onFile addressOfContent gGroup) c
  | .dir _ dirs, c => by rw [onEntry, visitedEntry, onNewDir_eq dirs c]
  | .file name content, c => by
      rw [onEntry, visitedEntry, List.foldl_cons, List.foldl_nil]
      rfl
  | .other _, c => by rw [onEntry, visitedEntry, List.foldl_nil]

end

end Visit

/-! ## What a run writes -/

section Blocks

variable (addressOfContent : JsString → JsString) (gGroup : JsString)

/-- The file belongs into a block. -/
def Kept (file : ArchiveFile) : Prop :=
  addressOfContent file.content = file.name ∧ byteLength file.content > minArticleSize

instance : DecidablePred (Kept addressOfContent) :=
  fun _ => inferInstanceAs (Decidable (_ ∧ _))

/-- The bytes of some files. -/
def sizeOf (part : List ArchiveFile) : ℕ :=
  (part.map (fun file => byteLength file.content)).sum

/-- The last file, and no earlier one, makes the block large enough. -/
def Full (part : List ArchiveFile) : Prop :=
  OneBlockSize ≤ sizeOf part ∧ sizeOf part.dropLast < OneBlockSize

/-- The block lists the files and their bytes. -/
structure Holds (block : BlockObject) (part : List ArchiveFile) : Prop where
  group : block.group = gGroup
  size : block.size = sizeOf part
  resource : block.resource = part.map ArchiveFile.name

/-- The blocks that are written: each in the file of its address, linked, listed, and
each with its part of the files. -/
structure Written (parts : List (List ArchiveFile)) (blocks : List BlockObject)
    (c : Collector) : Prop where
  linked : LinkedFrom BlockObject.prev (addressOfBlock addressOfContent) Genesis blocks
  prevBlock : c.prevBlock = tip (addressOfBlock addressOfContent) Genesis blocks
  block : c.block = Genesis :: blocks.map (addressOfBlock addressOfContent)
  blockFiles : c.blockFiles = blocks.map (fun block =>
    (blockOut (addressOfBlock addressOfContent block), block.stringify (some 2)))
  holds : List.Forall₂ (Holds gGroup) blocks parts

/-- The variables between two files: all blocks so far are full, and the files that
wait are too few for one. -/
structure Collected (files : List ArchiveFile) (parts : List (List ArchiveFile))
    (part : List ArchiveFile) (blocks : List BlockObject) (c : Collector) : Prop where
  written : Written addressOfContent gGroup parts blocks c
  files : parts.flatten ++ part = files
  full : ∀ p ∈ parts, Full p
  counter : c.blockSizeCounter = sizeOf part
  cache : c.blockResourceCache = part.map ArchiveFile.name
  few : sizeOf part < OneBlockSize

variable {addressOfContent gGroup}

@[simp] theorem sizeOf_append_singleton (part : List ArchiveFile) (file : ArchiveFile) :
    sizeOf (part ++ [file]) = sizeOf part + byteLength file.content := by
  simp [sizeOf]

/-- `writeBlock` adds a block of the files that wait. -/
theorem Written.writeBlock {parts : List (List ArchiveFile)} {part : List ArchiveFile}
    {blocks : List BlockObject} {c : Collector}
    (h : Written addressOfContent gGroup parts blocks c)
    (hcounter : c.blockSizeCounter = sizeOf part)
    (hcache : c.blockResourceCache = part.map ArchiveFile.name) :
    ∃ block, Written addressOfContent gGroup (parts ++ [part]) (blocks ++ [block])
      (writeBlock addressOfContent gGroup c) := by
  let block : BlockObject := ⟨c.prevBlock, gGroup, c.blockSizeCounter, c.blockResourceCache⟩
  refine ⟨block, ?_, ?_, ?_, ?_, ?_⟩
  · exact linked_append_singleton.mpr ⟨h.linked, h.prevBlock⟩
  · rw [tip_append_singleton]
    rfl
  · show c.block ++ [addressOfBlock addressOfContent block] = _
    rw [h.block]
    simp
  · show c.blockFiles ++ [(blockOut (addressOfBlock addressOfContent block),
      block.stringify (some 2))] = _
    rw [h.blockFiles]
    simp
  · exact List.rel_append h.holds (.cons ⟨rfl, hcounter, hcache⟩ .nil)

/-- The blocks are not touched by what is counted or reported. -/
theorem Written.congr {parts : List (List ArchiveFile)} {blocks : List BlockObject}
    {c c' : Collector} (h : Written addressOfContent gGroup parts blocks c)
    (hprevBlock : c'.prevBlock = c.prevBlock) (hblock : c'.block = c.block)
    (hblockFiles : c'.blockFiles = c.blockFiles) :
    Written addressOfContent gGroup parts blocks c' :=
  ⟨h.linked, hprevBlock.trans h.prevBlock, hblock.trans h.block,
    hblockFiles.trans h.blockFiles, h.holds⟩

section File

variable {files : List ArchiveFile} {parts : List (List ArchiveFile)}
  {part : List ArchiveFile} {blocks : List BlockObject} {c : Collector} {file : ArchiveFile}

/-- A bad file is reported, a short one is passed over. -/
theorem Collected.pass (h : Collected addressOfContent gGroup files parts part blocks c)
    (hkept : ¬ Kept addressOfContent file) :
    Collected addressOfContent gGroup files parts part blocks
      (onFile addressOfContent gGroup c file) := by
  by_cases haddress : addressOfContent file.content = file.name
  · have hshort : ¬ byteLength file.content > minArticleSize :=
      fun hlong => hkept ⟨haddress, hlong⟩
    rw [HashArchive.onFile, onNewFile, if_pos haddress, onFileContent, if_neg hshort]
    exact h
  · rw [HashArchive.onFile, onNewFile, if_neg haddress]
    exact ⟨h.written.congr rfl rfl rfl, h.files, h.full, h.counter, h.cache, h.few⟩

/-- A file is taken, and may fill the block. -/
theorem Collected.take (h : Collected addressOfContent gGroup files parts part blocks c)
    (hkept : Kept addressOfContent file) :
    ∃ parts' part' blocks', Collected addressOfContent gGroup (files ++ [file]) parts' part'
      blocks' (onFile addressOfContent gGroup c file) := by
  obtain ⟨haddress, hlong⟩ := hkept
  let c' : Collector := { c with
    blockSizeCounter := c.blockSizeCounter + byteLength file.content
    blockResourceCache := c.blockResourceCache ++ [file.name] }
  have hwritten : Written addressOfContent gGroup parts blocks c' :=
    h.written.congr rfl rfl rfl
  have hcounter : c'.blockSizeCounter = sizeOf (part ++ [file]) := by
    show c.blockSizeCounter + _ = _
    rw [sizeOf_append_singleton, h.counter]
  have hcache : c'.blockResourceCache = (part ++ [file]).map ArchiveFile.name := by
    show c.blockResourceCache ++ _ = _
    rw [h.cache, List.map_append, List.map_singleton]
  have hfiles : parts.flatten ++ (part ++ [file]) = files ++ [file] := by
    rw [← List.append_assoc, h.files]
  have hstep : HashArchive.onFile addressOfContent gGroup c file =
      if c'.blockSizeCounter ≥ OneBlockSize then
        HashArchive.writeBlock addressOfContent gGroup c' else c' := by
    rw [HashArchive.onFile, onNewFile, if_pos haddress, onFileContent, if_pos hlong]
  rw [hstep]
  by_cases hfull : c'.blockSizeCounter ≥ OneBlockSize
  · rw [if_pos hfull]
    obtain ⟨block, hblock⟩ := hwritten.writeBlock hcounter hcache
    refine ⟨parts ++ [part ++ [file]], [], blocks ++ [block], hblock, ?_, ?_, rfl, rfl, ?_⟩
    · simpa using hfiles
    · intro p hp
      rcases List.mem_append.mp hp with hp | hp
      · exact h.full p hp
      · rw [List.mem_singleton.mp hp]
        refine ⟨hcounter ▸ hfull, ?_⟩
        rw [List.dropLast_concat]
        exact h.few
    · decide
  · rw [if_neg hfull]
    refine ⟨parts, part ++ [file], blocks, hwritten, hfiles, h.full, hcounter, hcache, ?_⟩
    rw [← hcounter]
    exact not_le.mp hfull

/-- **One file.** -/
theorem Collected.onFile (h : Collected addressOfContent gGroup files parts part blocks c)
    (file : ArchiveFile) :
    ∃ parts' part' blocks',
      Collected addressOfContent gGroup
        (files ++ [file].filter (fun f => decide (Kept addressOfContent f))) parts' part'
        blocks' (onFile addressOfContent gGroup c file) := by
  by_cases hkept : Kept addressOfContent file
  · rw [List.filter_cons_of_pos (by simpa using hkept), List.filter_nil]
    exact h.take hkept
  · rw [List.filter_cons_of_neg (by simpa using hkept), List.filter_nil, List.append_nil]
    exact ⟨parts, part, blocks, h.pass hkept⟩

end File

/-- All files, one after the other. -/
theorem Collected.foldl : ∀ (visit : List ArchiveFile) {files : List ArchiveFile}
    {parts : List (List ArchiveFile)} {part : List ArchiveFile}
    {blocks : List BlockObject} {c : Collector},
    Collected addressOfContent gGroup files parts part blocks c →
    ∃ parts' part' blocks', Collected addressOfContent gGroup
      (files ++ visit.filter (fun f => decide (Kept addressOfContent f))) parts' part' blocks'
      (visit.foldl (HashArchive.onFile addressOfContent gGroup) c)
  | [], _, parts, part, blocks, _, h => ⟨parts, part, blocks, by simpa using h⟩
  | file :: visit, _, _, _, _, _, h => by
      obtain ⟨parts', part', blocks', h'⟩ := h.onFile file
      obtain ⟨parts'', part'', blocks'', h''⟩ := h'.foldl visit
      refine ⟨parts'', part'', blocks'', ?_⟩
      rw [List.append_assoc, ← List.filter_append, List.singleton_append] at h''
      exact h''

theorem collected_new (directories : List JsString) :
    Collected addressOfContent gGroup [] [] [] [] (.new directories) :=
  ⟨⟨trivial, rfl, rfl, rfl, .nil⟩, rfl, by simp, rfl, rfl, by decide⟩

variable (addressOfContent gGroup)

/-- What the script leaves behind for the given files: linked blocks, each in the file
of its address, `blockchain.json` with all their addresses, and the files divided
among the blocks in order, all but the last of which are full. -/
structure Archived (files : List ArchiveFile) (parts : List (List ArchiveFile))
    (blocks : List BlockObject) (c : Collector) : Prop where
  linked : LinkedFrom BlockObject.prev (addressOfBlock addressOfContent) Genesis blocks
  blockFiles : c.blockFiles = blocks.map (fun block =>
    (blockOut (addressOfBlock addressOfContent block), block.stringify (some 2)))
  listed : c.blockchainJson = some (chainStr gGroup
    (Genesis :: blocks.map (addressOfBlock addressOfContent))
    (tip (addressOfBlock addressOfContent) Genesis blocks))
  nonempty : blocks ≠ []
  holds : List.Forall₂ (Holds gGroup) blocks parts
  divided : parts.flatten = files
  resources : (blocks.map BlockObject.resource).flatten = files.map ArchiveFile.name
  full : ∀ part ∈ parts.dropLast, Full part

variable {addressOfContent gGroup} in
/-- The resources of the blocks, one after the other, name the files. -/
theorem resources_flatten {parts : List (List ArchiveFile)} {blocks : List BlockObject}
    (h : List.Forall₂ (Holds gGroup) blocks parts) :
    (blocks.map BlockObject.resource).flatten = parts.flatten.map ArchiveFile.name := by
  induction h with
  | nil => rfl
  | cons hpart _ ih =>
      rw [List.map_cons, List.flatten_cons, List.flatten_cons, List.map_append, ih,
        hpart.resource]

/-- **A run archives the files that are kept**, in the order of the visit. -/
theorem archive_blocks (directories : List JsString) (dirs : List Entry) :
    ∃ parts blocks, Archived addressOfContent gGroup
      ((visited dirs).filter (fun file => decide (Kept addressOfContent file))) parts blocks
      (run addressOfContent gGroup directories dirs) := by
  have hnew : Collected addressOfContent gGroup [] [] [] [] (.new directories) :=
    collected_new directories
  obtain ⟨parts, part, blocks, h⟩ := hnew.foldl (visited dirs)
  rw [List.nil_append] at h
  obtain ⟨block, hblock⟩ := h.written.writeBlock h.counter h.cache
  refine ⟨parts ++ [part], blocks ++ [block], ?_⟩
  rw [run, onNewDir_eq]
  have hfiles : (parts ++ [part]).flatten =
      (visited dirs).filter (fun file => decide (Kept addressOfContent file)) := by
    simpa using h.files
  refine ⟨hblock.linked, hblock.blockFiles, ?_, by simp, hblock.holds, hfiles, ?_, ?_⟩
  · have hlisted : ∀ c : Collector, (writeBlock addressOfContent gGroup c).blockchainJson =
        some (chainStr gGroup (writeBlock addressOfContent gGroup c).block
          (writeBlock addressOfContent gGroup c).prevBlock) := fun _ => rfl
    rw [hlisted, hblock.block, hblock.prevBlock]
  · rw [← hfiles]
    exact resources_flatten hblock.holds
  · rw [List.dropLast_concat]
    exact h.full

end Blocks

end WaiNative.HashArchive
