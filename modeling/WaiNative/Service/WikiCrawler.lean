import WaiNative.Service.CrawlerSave

/-!
# The links of a page

`WikiCrawler::parse` collects the links of a page and uploads them in messages of
twenty, each link as `{href};`. The server cuts the `crawler` field of a message at
any of `{};` and takes what is not empty.

Wherever the messages end, the server reads the pieces of all links
(`read_parse`). These are the links themselves exactly when none of them is empty
or holds a delimiter (`links_read_back_iff`).
-/

namespace WaiNative

open Cxx

/-- The fields of a task that the crawler reads, and those that go back to the
server with each message. -/
structure CrawlTask where
  lang : Option Lang
  url : Option Str
  filter : Option Str
  prefix_ : Option Str
  base_url : Option Str

namespace WikiCrawler

def iConstOnceUpURLMax : ℕ := 20

/-- `href="` -/
def strMatchHref : Str := [104, 114, 101, 102, 61, 34]

/-! ## The regular expression -/

/-- The class `['|"]`. -/
def isQuote (c : UInt8) : Bool := c == 39 || c == 124 || c == 34

/-- `href=['|"]` matches at the start of `s`. -/
def hrefHere (s : Str) : Bool :=
  [104, 114, 101, 102, 61].isPrefixOf s && (s.drop 5).head?.any isQuote

/-- The leftmost match of `<a.*?href=['|"](.*?)['|"]`, as its start and its length.
Both `.*?` are lazy: the first `href=` behind `<a`, and the first quote behind it. A
later start has no more of either. -/
def hrefMatch (content : Str) : Option (ℕ × ℕ) := do
  let start ← find content [60, 97]
  let gap ← (content.drop (start + 2)).tails.findIdx? hrefHere
  let size ← (content.drop (start + 2 + gap + 6)).findIdx? isQuote
  return (start, 2 + gap + 6 + size + 1)

theorem hrefMatch_shorter {content : Str} {start size : ℕ}
    (h : hrefMatch content = some (start, size)) :
    (content.drop (start + size)).length < content.length := by
  obtain ⟨first, hfirst, h⟩ := Option.bind_eq_some_iff.mp h
  obtain ⟨gap, -, h⟩ := Option.bind_eq_some_iff.mp h
  obtain ⟨n, -, h⟩ := Option.bind_eq_some_iff.mp h
  obtain ⟨rfl, rfl⟩ := Prod.mk.inj (Option.some.inj h)
  cases content with
  | nil =>
      have hnone : find [] [60, 97] = none := by decide
      exact absurd (hnone.symm.trans hfirst) (by simp)
  | cons c cs =>
      rw [List.length_drop, List.length_cons]
      omega

/-- `match.str()` for each `match` of `sregex_iterator`. -/
def hrefMatches (content : Str) : List Str :=
  match _h : hrefMatch content with
  | some (start, size) =>
      slice content start size :: hrefMatches (content.drop (start + size))
  | none => []
termination_by content.length
decreasing_by exact hrefMatch_shorter _h

/-! ## Collecting -/

/-- The body of the loop over the matches. When the only `"` is the one of `href="`,
the length wraps around and `substr` takes the rest. -/
def hrefOf (task : CrawlTask) (match_href : Str) : Option Str :=
  let filter := task.filter.getD []
  let prefix_ := task.prefix_.getD []
  let base_url := task.base_url.getD []
  match find match_href strMatchHref, find_last_of match_href 34 with
  | some first, some last =>
      if last > first then
        let begin_ := first + strMatchHref.length
        let size := if last < begin_ then match_href.length else last - begin_
        let href := slice match_href begin_ size
        if find href filter = some 0 then
          let href := base_url ++ href
          some (if filter ≠ prefix_ then replace_all href filter prefix_ else href)
        else none
      else none
  | _, _ => none

def hrefArrays (task : CrawlTask) (content : Str) : List Str :=
  (hrefMatches content).filterMap (hrefOf task)

/-! ## Uploading -/

/-- The message of `up`, as the server reads it. -/
def up (task : CrawlTask) (urls : Str) : SaveMessage := ⟨task.lang, task.url, some urls⟩

/-- The variables of the second loop, and what has been uploaded. -/
structure UpLoop where
  crawlerArrays : Str
  counter : ℕ
  ups : List Str
deriving DecidableEq

def UpLoop.start : UpLoop := ⟨[], 1, []⟩

def UpLoop.push (u : UpLoop) (href : Str) : UpLoop :=
  let crawlerArrays := u.crawlerArrays ++ ([123] ++ href ++ [125, 59])
  if u.counter % iConstOnceUpURLMax = 0 then
    ⟨[], u.counter + 1, u.ups ++ [crawlerArrays]⟩
  else ⟨crawlerArrays, u.counter + 1, u.ups⟩

/-- Behind the loop: what is left, or an empty message when there were no links. -/
def UpLoop.finish (u : UpLoop) : List Str :=
  if u.crawlerArrays ≠ [] ∨ u.counter = 1 then u.ups ++ [u.crawlerArrays] else u.ups

def parse (task : CrawlTask) (content : Str) : List SaveMessage :=
  (((hrefArrays task content).foldl UpLoop.push UpLoop.start).finish).map (up task)

/-! ## Reading back -/

/-- The URLs that `processTextInSide` takes from a message. -/
def urlsOf (m : SaveMessage) : List Str := m.list_string.filter (fun url => !url.isEmpty)

section Reading

variable {task : CrawlTask} {content : Str} {u : UpLoop} {hrefs : List Str}

/-- The links written so far are read from the messages and from what is pending. -/
structure UpLoop.Holds (u : UpLoop) (hrefs : List Str) : Prop where
  read : u.ups.flatMap (tokens isDelim) ++ tokens isDelim u.crawlerArrays =
    hrefs.flatMap (tokens isDelim)
  counter : u.counter = hrefs.length + 1

theorem UpLoop.holds_start : UpLoop.start.Holds [] := ⟨rfl, rfl⟩

/-- `{href};` ends what is pending and is cut off from what follows. -/
theorem tokens_record (pending href : Str) :
    tokens isDelim (pending ++ ([123] ++ href ++ [125, 59])) =
      tokens isDelim pending ++ tokens isDelim href := by
  have hbrace : pending ++ ([123] ++ href ++ [125, 59]) =
      pending ++ 123 :: (href ++ 125 :: [59]) := by simp
  have hend : tokens isDelim [59] = [] := by decide
  rw [hbrace, tokens_append_delim (by decide), tokens_append_delim (by decide), hend,
    List.append_nil]

theorem UpLoop.Holds.push (h : u.Holds hrefs) (href : Str) :
    (u.push href).Holds (hrefs ++ [href]) := by
  have hread : u.ups.flatMap (tokens isDelim) ++
      tokens isDelim (u.crawlerArrays ++ ([123] ++ href ++ [125, 59])) =
        (hrefs ++ [href]).flatMap (tokens isDelim) := by
    rw [tokens_record, ← List.append_assoc, h.read, List.flatMap_append,
      List.flatMap_singleton]
  have hnil : tokens isDelim [] = [] := rfl
  unfold UpLoop.push
  dsimp only
  split
  · refine ⟨?_, by simp [h.counter]⟩
    rw [List.flatMap_append, List.flatMap_singleton, hnil, List.append_nil, hread]
  · exact ⟨hread, by simp [h.counter]⟩

theorem UpLoop.Holds.pushAll (h : u.Holds hrefs) : ∀ hrefs' : List Str,
    (hrefs'.foldl UpLoop.push u).Holds (hrefs ++ hrefs') := by
  intro hrefs'
  induction hrefs' generalizing u hrefs with
  | nil => simpa using h
  | cons href hrefs' ih =>
      have hall := ih (h.push href)
      rwa [List.append_assoc] at hall

/-- What is left out behind the loop holds no link. -/
theorem UpLoop.Holds.finish (h : u.Holds hrefs) :
    u.finish.flatMap (tokens isDelim) = hrefs.flatMap (tokens isDelim) := by
  unfold UpLoop.finish
  split
  · rw [List.flatMap_append, List.flatMap_singleton, h.read]
  · rename_i hleft
    have hnil : u.crawlerArrays = [] := by
      by_contra hne
      exact hleft (Or.inl hne)
    have hread := h.read
    rw [hnil] at hread
    rw [← hread]
    exact (List.append_nil _).symm

/-- **The server reads the pieces of all links**, wherever the messages end. -/
theorem read_parse (task : CrawlTask) (content : Str) :
    (parse task content).flatMap urlsOf =
      (hrefArrays task content).flatMap (tokens isDelim) := by
  rw [parse, List.flatMap_map]
  have hfinish := (UpLoop.holds_start.pushAll (hrefArrays task content)).finish
  rw [List.nil_append] at hfinish
  exact hfinish

end Reading

/-- The URLs of all messages are the links of the page. -/
def ReadsBack (task : CrawlTask) (content : Str) : Prop :=
  (parse task content).flatMap urlsOf = hrefArrays task content

/-- **The links come back exactly when none is empty or holds one of `{};`.** -/
theorem links_read_back_iff (task : CrawlTask) (content : Str) :
    ReadsBack task content ↔
      ∀ href ∈ hrefArrays task content, href ≠ [] ∧ ∀ c ∈ href, isDelim c = false := by
  rw [ReadsBack, read_parse]
  exact flatMap_tokens_iff

/-- `<a href="/a?x&amp;y">` -/
def entityPage : Str :=
  [60, 97, 32, 104, 114, 101, 102, 61, 34, 47, 97, 63, 120, 38, 97, 109, 112, 59, 121, 34, 62]

/-- A link with an HTML entity is cut at its semicolon. -/
theorem entity_link_split : ¬ ReadsBack ⟨some .cn, none, none, none, none⟩ entityPage := by
  unfold ReadsBack
  with_unfolding_all decide

end WikiCrawler

end WaiNative
