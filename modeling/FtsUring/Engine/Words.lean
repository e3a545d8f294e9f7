import FtsUring.Engine.Engine
import FtsUring.Lexicon.Tokenizer
import FtsUring.Lexicon.TermIds
import FtsUring.Shard.Postings
import FtsUring.Shard.Recorded

/-!
# Finding the words of a document

The Python bindings insert a document under the ids of the tokens of its text, and a query looks for the
ids of its own tokens. Every word of the text is found, and nothing else is posted, exactly when the words
and the tokens have the same ids. A text of at most 4095 characters and 1024 words has all its words among
its tokens.
-/

namespace FtsUring

open Foundation

variable {F : Type} [Double F]

/-- The term ids of a text that is inserted. -/
def pythonTermIds (lexicon : Lexicon) (text : Option CString) : List UInt32 × Lexicon :=
  match text with
  | none => ([], lexicon)
  | some text => lexiconInserts lexicon (lexiconTokenize text 4096 1024)

/-- The term ids of a query. -/
def ftsFilterTermIds (lexicon : Lexicon) (searchTerm : CString) : List UInt32 × Lexicon :=
  lexiconInserts lexicon (lexiconTokenize searchTerm 4096 64)

/-- There are at most 1024 tokens. -/
theorem length_pythonTermIds (lexicon : Lexicon) (text : Option CString) :
    (pythonTermIds lexicon text).1.length < 2 ^ 32 := by
  cases text with
  | none => exact Nat.two_pow_pos 32
  | some text =>
    rw [pythonTermIds, length_lexiconInserts, lexiconTokenize_eq text (by decide), List.length_map,
      List.length_take]
    exact (min_le_left _ _).trans_lt (by decide)

/-- The document that the Python bindings insert. -/
def pythonDocument (nodeId : Vector UInt8 16) (tf dl : Vector UInt32 maxFtsFields)
    (embedding : Vector UInt32 embeddingDim) (lexicon : Lexicon) (text : Option CString) : Document :=
  ⟨nodeId, tf, dl, embedding, (pythonTermIds lexicon text).1, length_pythonTermIds lexicon text⟩

/-- The terms of the document. -/
theorem termIds_pythonDocument (nodeId : Vector UInt8 16) (tf dl : Vector UInt32 maxFtsFields)
    (embedding : Vector UInt32 embeddingDim) (lexicon : Lexicon) (text : Option CString) :
    (pythonDocument nodeId tf dl embedding lexicon text).termIds = (pythonTermIds lexicon text).1 := rfl

/-- Insert a document for the Python bindings, if an engine is open; the answer is whether the return code
is 0. -/
def pythonInsertDocument (gEngine : Option (UnifiedEngine F)) (gLexicon : Lexicon)
    (nodeId : Vector UInt8 16) (tf dl : Vector UInt32 maxFtsFields)
    (embedding : Vector UInt32 embeddingDim) (text : Option CString) :
    Option (Bool × Option (UnifiedEngine F) × Lexicon) :=
  match gEngine with
  | none => some (false, none, gLexicon)
  | some engine =>
    (engineInsertDocument engine (pythonDocument nodeId tf dl embedding gLexicon text)).map
      fun (ok, engine) => (ok, some engine, (pythonTermIds gLexicon text).2)

/-- The only id of a word. -/
theorem ftsFilterTermIds_word (lexicon : Lexicon) {word text : CString} (h : IsWord word text) :
    (ftsFilterTermIds lexicon word).1 = [lexicon.termId ((word.take 4095).map tolower)] := by
  rw [ftsFilterTermIds, lexiconTokenize_word h (by decide) (by decide), ← fst_lexiconInsert]
  rfl

/-! ## Postings of a new document -/

namespace ShardView

/-- A posting is added under its term only. -/
theorem postings_addPosting_of_ne (view : ShardView) {termId other : UInt32} (posting : InvertedPosting)
    (hne : other ≠ termId) : (view.addPosting termId posting).postings other = view.postings other := by
  have hset : ∀ chain : PostingPages, (view.setPostings termId chain).postings other =
      view.postings other := by
    intro chain
    rw [postings_setPostings, if_neg hne]
  rw [addPosting]
  cases (view.postings termId).newest? with
  | none => exact hset _
  | some last =>
    dsimp only
    split_ifs <;> exact hset _

/-- The newest posting of a term that got a posting belongs to the document. -/
def NewestOf (view : ShardView) (docId termId : UInt32) : Prop :=
  ∃ last, (view.postings termId).newest? = some last ∧ last.docId = docId

/-- A posting of a document keeps the newest postings that belong to it, and adds one. -/
theorem newestOf_addPosting {view : ShardView} {docId termId other : UInt32} {posting : InvertedPosting}
    (hposting : posting.docId = docId) (h : other = termId ∨ view.NewestOf docId other) :
    (view.addPosting termId posting).NewestOf docId other := by
  rw [NewestOf, newest?_addPosting]
  split_ifs with hterm
  · refine ⟨_, rfl, ?_⟩
    rw [newestWith]
    cases (view.postings termId).newest? with
    | none => exact hposting
    | some last =>
      dsimp only
      split_ifs with hdoc
      · exact hdoc.trans hposting
      · exact hposting
  · exact h.resolve_left hterm

/-- The postings of the terms of a document. -/
theorem newestOf_addPostings {view : ShardView} {docId other : UInt32} (pageId slotId position : ℕ)
    {termIds : List UInt32} (h : other ∈ termIds ∨ view.NewestOf docId other) :
    (view.addPostings docId pageId slotId position termIds).NewestOf docId other := by
  induction termIds generalizing view position with
  | nil => exact h.resolve_left List.not_mem_nil
  | cons termId termIds ih =>
    refine ih (position + 1) ?_
    obtain h | h := h
    · obtain rfl | h := List.mem_cons.mp h
      · exact .inr (newestOf_addPosting rfl (.inl rfl))
      · exact .inl h
    · exact .inr (newestOf_addPosting rfl (.inr h))

/-- Postings are added under the terms of the document only. -/
theorem postings_addPostings_of_not_mem (view : ShardView) (docId : UInt32) (pageId slotId position : ℕ)
    {termIds : List UInt32} {other : UInt32} (h : other ∉ termIds) :
    (view.addPostings docId pageId slotId position termIds).postings other = view.postings other := by
  induction termIds generalizing view position with
  | nil => rfl
  | cons termId termIds ih =>
    rw [List.mem_cons, not_or] at h
    rw [addPostings, ih _ _ h.2, postings_addPosting_of_ne _ _ h.1]

/-- A new document is posted under its terms and under term 0. -/
theorem newestOf_insertDocument (view : ShardView) (doc : Document) {termId : UInt32}
    (h : termId = 0 ∨ termId ∈ doc.termIds) :
    (view.insertDocument doc).NewestOf view.nextDocId termId := by
  obtain h | h := h
  · exact newestOf_addPosting rfl (.inl h)
  · exact newestOf_addPosting rfl (.inr (newestOf_addPostings _ _ _ (.inl h)))

/-- A new document is posted under no other term. -/
theorem postings_insertDocument_of_not_mem (view : ShardView) (doc : Document) {termId : UInt32}
    (hzero : termId ≠ 0) (h : termId ∉ doc.termIds) :
    (view.insertDocument doc).postings termId = view.postings termId := by
  rw [insertDocument, postings_addPosting_of_ne _ _ hzero, postings_addPostings_of_not_mem _ _ _ _ _ h]
  rfl

end ShardView

/-- The newest posting is on the first page. -/
theorem newest_mem_take {chain : PostingPages} (h : chain.Packed maxPostingsPerPage)
    {last : InvertedPosting} (hlast : chain.newest? = some last) {count : ℕ}
    (hcount : maxPostingsPerPage ≤ count) : last ∈ chain.contents.take count := by
  cases chain with
  | nil => exact absurd hlast nofun
  | cons first rest =>
    obtain ⟨id, page⟩ := first
    have hlength : page.length ≤ count := (h.fits _ List.mem_cons_self).trans hcount
    rw [PageChain.contents_cons, List.take_append, List.take_of_length_le hlength]
    exact List.mem_append_left _ (List.mem_of_getLast? hlast)

/-- A search of the index returns the posting. -/
def PostedAt (m : Machine) (termId : UInt32) (posting : InvertedPosting) : Prop :=
  ∃ maxPostings < 2 ^ 32, ∃ found m',
    poolHandler.exec (invertedIndexGetPostings termId maxPostings) m = some (found, m') ∧ posting ∈ found

/-- The postings that searches return. -/
theorem ShardAt.postedAt_iff {m : Machine} {s : PageArray} {view : ShardView} (h : ShardAt s view)
    (hm : Represents m s) {termId : UInt32} {posting : InvertedPosting} :
    PostedAt m termId posting ↔ posting ∈ (view.postings termId).contents.take (2 ^ 32 - 1) := by
  constructor
  · rintro ⟨maxPostings, hmax, found, m', hexec, hposting⟩
    obtain ⟨n, hn, -⟩ := poolHandler_simulates.exec hm (h.exec_getPostings termId hmax)
    rw [hexec, Option.some.injEq, Prod.mk.injEq] at hn
    rw [hn.1] at hposting
    exact (List.take_sublist_take_left (by omega)).subset hposting
  · intro hposting
    have hmax : 2 ^ 32 - 1 < 2 ^ 32 := by decide
    obtain ⟨n, hn, -⟩ := poolHandler_simulates.exec hm (h.exec_getPostings termId hmax)
    exact ⟨_, hmax, _, n, hn, hposting⟩

/-! ## Words and tokens -/

/-- What a query makes of a word. -/
def queryToken (word : CString) : CString := (word.take 4095).map tolower

/-- The first 1024 words of the first 4095 characters of a text, in lower case. -/
def leadingTokens (text : CString) : List CString :=
  ((words (text.take 4095)).take 1024).map (List.map tolower)

/-- The Python bindings post a document under the leading tokens of its text. -/
theorem lexiconTokenize_text (text : CString) : lexiconTokenize text 4096 1024 = leadingTokens text :=
  lexiconTokenize_eq text (by decide) 1024

/-- The words of a text have the ids of its leading tokens, and the leading tokens have the ids of words. -/
structure WordsIndexed (lexicon : Lexicon) (text : CString) : Prop where
  words : ∀ word, IsWord word text → ∃ token ∈ leadingTokens text,
    lexicon.termId token = lexicon.termId (queryToken word)
  tokens : ∀ token ∈ leadingTokens text, ∃ word, IsWord word text ∧
    lexicon.termId token = lexicon.termId (queryToken word)

/-- No leading token that the lexicon cuts is found by a leading token or by a word of the text. -/
structure TokensWhole (text : CString) : Prop where
  tokens : ∀ token ∈ leadingTokens text, lexiconMaxTermLen < token.length →
    ∀ other ∈ leadingTokens text, ¬FoundBy token other
  words : ∀ token ∈ leadingTokens text, lexiconMaxTermLen < token.length →
    ∀ word, IsWord word text → ¬FoundBy token (queryToken word)

/-- A document is found under every word of its text, and it is posted under nothing else but term 0. -/
structure FindsWords (before after : Machine) (lexicon : Lexicon) (docId : UInt32) (text : CString) :
    Prop where
  found : ∀ word, IsWord word text → ∃ termId, (ftsFilterTermIds lexicon word).1 = [termId] ∧
    ∃ posting, PostedAt after termId posting ∧ posting.docId = docId
  only : ∀ termId posting, PostedAt after termId posting → ¬PostedAt before termId posting →
    termId = 0 ∨ ∃ word, IsWord word text ∧ (ftsFilterTermIds lexicon word).1 = [termId]

/-- A short text with few words has all its words among its tokens. -/
theorem wordsIndexed_of_short (lexicon : Lexicon) {text : CString} (hlength : text.length ≤ 4095)
    (hwords : (words text).length ≤ 1024) : WordsIndexed lexicon text := by
  have htokens : leadingTokens text = (words text).map queryToken := by
    rw [leadingTokens, List.take_of_length_le hlength, List.take_of_length_le hwords]
    refine List.map_congr_left fun word hword => ?_
    obtain ⟨-, -, before, after, htext, -⟩ := mem_words_iff.mp hword
    have hshort : word.length ≤ 4095 := by
      rw [htext, List.length_append, List.length_append] at hlength
      omega
    rw [queryToken, List.take_of_length_le hshort]
  refine ⟨fun word hword => ⟨queryToken word, ?_, rfl⟩, fun token htoken => ?_⟩
  · rw [htokens]
    exact List.mem_map_of_mem (mem_words_iff.mpr hword)
  · rw [htokens] at htoken
    obtain ⟨word, hword, rfl⟩ := List.mem_map.mp htoken
    exact ⟨word, mem_words_iff.mp hword, rfl⟩

/-- A shard with a content. -/
structure EngineShard.Holds (s : EngineShard F) (view : ShardView) : Prop where
  represented : ∃ pages, Represents s.machine pages ∧ ShardAt pages view
  agrees : s.shard.Matches view

/-! ## Inserting a text -/

section Inserting

variable {engine next : UnifiedEngine F} {lexicon lexicon' : Lexicon} {s : EngineShard F} {view : ShardView}
  {nodeId : Vector UInt8 16} {tf dl : Vector UInt32 maxFtsFields} {embedding : Vector UInt32 embeddingDim}
  {text : CString}

/-- The shard after a document was inserted. -/
theorem pythonInsertDocument_spec
    (hs : engine.shards[shardIndex nodeId engine.shards.length]? = some s) (hholds : s.Holds view)
    (hfits : (view.insertDocument
      (pythonDocument nodeId tf dl embedding lexicon (some text))).nextPageId ≤ invalidPageId) :
    ∃ s' : EngineShard F, s'.Holds (view.insertDocument
        (pythonDocument nodeId tf dl embedding lexicon (some text))) ∧
      pythonInsertDocument (some engine) lexicon nodeId tf dl embedding (some text) =
        some (true, some { engine with
            shards := engine.shards.set (shardIndex nodeId engine.shards.length) s' },
          (pythonTermIds lexicon (some text)).2) := by
  obtain ⟨⟨pages, hm, hpages⟩, hmatches⟩ := hholds
  obtain ⟨result, t, hinsert, rfl, ht⟩ := hpages.ensures_insertDocument hmatches _ hfits
  obtain ⟨machine, hexec, hmachine⟩ := poolHandler_simulates.exec hm hinsert
  refine ⟨⟨_, machine⟩, ⟨⟨t, hmachine, ht⟩, hmatches.afterInsert _⟩, ?_⟩
  have hindex : engine.shards[shardIndex (pythonDocument nodeId tf dl embedding lexicon
      (some text)).nodeId engine.shards.length]? = some s := hs
  rw [pythonInsertDocument]
  dsimp only
  rw [engineInsertDocument]
  dsimp only
  rw [hindex]
  dsimp only
  rw [hexec]
  rfl

/-- What an insertion does to the postings: the document is posted under some ids, and nothing else is new except
under id 0. -/
structure PostsUnder (before after : Machine) (docId : UInt32) (termIds : List UInt32) : Prop where
  posted : ∀ termId ∈ termIds, ∃ posting, PostedAt after termId posting ∧ posting.docId = docId
  only : ∀ termId posting, PostedAt after termId posting → ¬PostedAt before termId posting →
    termId ≠ 0 → termId ∈ termIds

omit [Double F] in
/-- A document is posted under its terms. -/
theorem EngineShard.Holds.postsUnder {s' : EngineShard F} {doc : Document} (hholds : s.Holds view)
    (hholds' : s'.Holds (view.insertDocument doc)) :
    PostsUnder s.machine s'.machine s.shard.nextDocId doc.termIds := by
  obtain ⟨⟨pages, hm, hpages⟩, hmatches⟩ := hholds
  obtain ⟨⟨pages', hm', hpages'⟩, -⟩ := hholds'
  constructor
  case posted =>
    intro termId htermId
    obtain ⟨last, hlast, hdocId⟩ := view.newestOf_insertDocument doc (.inr htermId)
    exact ⟨last, (hpages'.postedAt_iff hm').mpr (newest_mem_take (hpages'.valid.packed _) hlast (by decide)),
      hdocId.trans hmatches.nextDocId.symm⟩
  case only =>
    intro termId posting hafter hbefore hzero
    by_contra hmem
    refine hbefore ((hpages.postedAt_iff hm).mpr ?_)
    rw [← view.postings_insertDocument_of_not_mem doc hzero hmem]
    exact (hpages'.postedAt_iff hm').mp hafter

section Posted

variable {before after : Machine} {docId : UInt32}

/-- When the words have the ids of the tokens, the document is found under the words and under nothing else. -/
theorem PostsUnder.findsWords (h : PostsUnder before after docId ((leadingTokens text).map lexicon.termId))
    (hqueried : ∀ word, IsWord word text → (ftsFilterTermIds lexicon' word).1 = [lexicon.termId (queryToken word)])
    (hwords : WordsIndexed lexicon text) : FindsWords before after lexicon' docId text := by
  constructor
  case found =>
    intro word hword
    obtain ⟨token, htoken, hsame⟩ := hwords.words word hword
    exact ⟨_, hqueried word hword, hsame ▸ h.posted _ (List.mem_map_of_mem htoken)⟩
  case only =>
    intro termId posting hafter hbefore
    by_cases hzero : termId = 0
    · exact .inl hzero
    · obtain ⟨token, htoken, rfl⟩ := List.mem_map.mp (h.only termId posting hafter hbefore hzero)
      obtain ⟨word, hword, hsame⟩ := hwords.tokens token htoken
      exact .inr ⟨word, hword, hsame ▸ hqueried word hword⟩

/-- When it is found under the words and under nothing else, the words have the ids of the tokens, unless the
document has an id that was posted before. -/
theorem PostsUnder.wordsIndexed (h : PostsUnder before after docId ((leadingTokens text).map lexicon.termId))
    (hqueried : ∀ word, IsWord word text → (ftsFilterTermIds lexicon' word).1 = [lexicon.termId (queryToken word)])
    (hpositive : ∀ term, lexicon.termId term ≠ 0)
    (hnew : ∀ termId posting, PostedAt before termId posting → posting.docId ≠ docId)
    (hfinds : FindsWords before after lexicon' docId text) : WordsIndexed lexicon text := by
  constructor
  case words =>
    intro word hword
    obtain ⟨termId, hquery, posting, hafter, hdocId⟩ := hfinds.found word hword
    rw [hqueried word hword, List.cons.injEq] at hquery
    obtain ⟨token, htoken, hsame⟩ := List.mem_map.mp (h.only termId posting hafter
      (fun hold => hnew _ _ hold hdocId) (hquery.1 ▸ hpositive _))
    exact ⟨token, htoken, hsame.trans hquery.1.symm⟩
  case tokens =>
    intro token htoken
    obtain ⟨posting, hafter, hdocId⟩ := h.posted _ (List.mem_map_of_mem htoken)
    obtain hzero | ⟨word, hword, hquery⟩ := hfinds.only _ posting hafter fun hold => hnew _ _ hold hdocId
    · exact absurd hzero (hpositive token)
    · rw [hqueried word hword, List.cons.injEq] at hquery
      exact ⟨word, hword, hquery.1.symm⟩

end Posted

/-- A document is found under every word of its text, and posted under nothing else, exactly when its words
and tokens have the same ids. When its id was given out before, the ids are still enough. -/
theorem findsWords_iff (hlexicon : ∃ terms, lexicon = (lexiconInserts lexiconInit terms).2)
    (hs : engine.shards[shardIndex nodeId engine.shards.length]? = some s) (hholds : s.Holds view)
    (hfits : (view.insertDocument
      (pythonDocument nodeId tf dl embedding lexicon (some text))).nextPageId ≤ invalidPageId)
    (hexec : pythonInsertDocument (some engine) lexicon nodeId tf dl embedding (some text) =
      some (true, some next, lexicon')) (hwhole : TokensWhole text) :
    ∃ s', next.shards[shardIndex nodeId engine.shards.length]? = some s' ∧
      (WordsIndexed lexicon text → FindsWords s.machine s'.machine lexicon' s.shard.nextDocId text) ∧
      ((∀ termId posting, PostedAt s.machine termId posting → posting.docId ≠ s.shard.nextDocId) →
        (FindsWords s.machine s'.machine lexicon' s.shard.nextDocId text ↔ WordsIndexed lexicon text)) := by
  obtain ⟨s', hholds', hspec⟩ := pythonInsertDocument_spec hs hholds hfits
  rw [hexec, Option.some.injEq, Prod.mk.injEq, Prod.mk.injEq, Option.some.injEq] at hspec
  obtain ⟨-, rfl, rfl⟩ := hspec
  refine ⟨s', ?_, ?_⟩
  · rw [List.getElem?_set_self (List.getElem?_eq_some_iff.mp hs).1]
  obtain ⟨terms, rfl⟩ := hlexicon
  set lexicon := (lexiconInserts lexiconInit terms).2
  have hpositive : ∀ term, lexicon.termId term ≠ 0 := termId_ne_zero (entries_ne_zero terms)
  have hinserted : pythonTermIds lexicon (some text) = lexiconInserts lexicon (leadingTokens text) := by
    rw [pythonTermIds, lexiconTokenize_text]
  have hposts := hholds.postsUnder hholds'
  rw [termIds_pythonDocument, hinserted, fst_lexiconInserts hwhole.tokens] at hposts
  have hqueried : ∀ word, IsWord word text →
      (ftsFilterTermIds (pythonTermIds lexicon (some text)).2 word).1 =
        [lexicon.termId (queryToken word)] := by
    intro word hword
    rw [ftsFilterTermIds_word _ hword, hinserted]
    congr 1
    exact termId_lexiconInserts fun token htoken hlong => hwhole.words token htoken hlong word hword
  have henough := fun hwords => hposts.findsWords hqueried hwords
  exact ⟨henough, fun hnew => ⟨fun hfinds => hposts.wordsIndexed hqueried hpositive hnew hfinds, henough⟩⟩

end Inserting

/-! ## A new engine -/

/-- There is an engine with one new shard. -/
theorem exists_engine_holds_fresh : ∃ engine : UnifiedEngine F, ∃ s : EngineShard F,
    engine.shards = [s] ∧ s.Holds ShardView.fresh := by
  obtain ⟨pages, hpages, hinit⟩ := @exec_shardInit_fresh F _ Host.empty ⟨rfl, rfl, rfl, rfl⟩ rfl ⟨3, 0⟩
  obtain ⟨machine, -, hmachine⟩ := hinit 0 2 0 (le_refl 0) (le_refl 2) (by decide) (by decide)
  exact ⟨⟨[⟨Shard.initial, machine⟩], 0, Vector.replicate maxFtsFields 0, Vector.replicate maxFtsFields 0,
    0, 0⟩, _, rfl, ⟨pages, hmachine, hpages⟩, Shard.matches_initial⟩

/-- "to be" is found under both words. -/
theorem findsWords_to_be : ∃ engine next : UnifiedEngine ℚ, ∃ lexicon', ∃ s s' : EngineShard ℚ,
    engine.shards = [s] ∧ next.shards[0]? = some s' ∧
    pythonInsertDocument (some engine) lexiconInit (Vector.replicate 16 0) (Vector.replicate maxFtsFields 1)
      (Vector.replicate maxFtsFields 2) (Vector.replicate embeddingDim 0)
      (some [0x74, 0x6f, 0x20, 0x62, 0x65]) = some (true, some next, lexicon') ∧
    FindsWords s.machine s'.machine lexicon' s.shard.nextDocId [0x74, 0x6f, 0x20, 0x62, 0x65] := by
  obtain ⟨engine, s, hengine, hholds⟩ := @exists_engine_holds_fresh ℚ _
  have hindex : shardIndex (Vector.replicate 16 0) engine.shards.length = 0 := by rw [hengine]; rfl
  have hs : engine.shards[shardIndex (Vector.replicate 16 0) engine.shards.length]? = some s := by
    rw [hindex, hengine]
    rfl
  have hfits : (ShardView.fresh.insertDocument (pythonDocument (Vector.replicate 16 0)
      (Vector.replicate maxFtsFields 1) (Vector.replicate maxFtsFields 2) (Vector.replicate embeddingDim 0)
      lexiconInit (some [0x74, 0x6f, 0x20, 0x62, 0x65]))).nextPageId ≤ invalidPageId := by
    decide +kernel
  have hshort : ∀ token ∈ leadingTokens [0x74, 0x6f, 0x20, 0x62, 0x65],
      ¬lexiconMaxTermLen < token.length := by decide +kernel
  obtain ⟨_, -, hexec⟩ := pythonInsertDocument_spec hs hholds hfits
  obtain ⟨s', hs', hfound, -⟩ := findsWords_iff ⟨[], rfl⟩ hs hholds hfits hexec
    ⟨fun token htoken hlong => absurd hlong (hshort token htoken),
      fun token htoken hlong => absurd hlong (hshort token htoken)⟩
  rw [hindex] at hs'
  exact ⟨engine, _, _, s, s', hengine, hs', hexec,
    hfound (wordsIndexed_of_short _ (by decide) (by decide +kernel))⟩

/-- 4094 blanks and "ab". The "b" does not fit into the buffer, and the document is posted under "a". -/
theorem not_findsWords : ∃ engine next : UnifiedEngine ℚ, ∃ lexicon', ∃ s s' : EngineShard ℚ,
    engine.shards = [s] ∧ next.shards[0]? = some s' ∧
    pythonInsertDocument (some engine) lexiconInit (Vector.replicate 16 0) (Vector.replicate maxFtsFields 1)
      (Vector.replicate maxFtsFields 2) (Vector.replicate embeddingDim 0)
      (some (List.replicate 4094 0x20 ++ [0x61, 0x62])) = some (true, some next, lexicon') ∧
    ¬FindsWords s.machine s'.machine lexicon' s.shard.nextDocId
      (List.replicate 4094 0x20 ++ [0x61, 0x62]) := by
  obtain ⟨engine, s, hengine, hholds⟩ := @exists_engine_holds_fresh ℚ _
  have hindex : shardIndex (Vector.replicate 16 0) engine.shards.length = 0 := by rw [hengine]; rfl
  have hs : engine.shards[shardIndex (Vector.replicate 16 0) engine.shards.length]? = some s := by
    rw [hindex, hengine]
    rfl
  have htokens : lexiconTokenize (List.replicate 4094 0x20 ++ [0x61, 0x62]) 4096 1024 = [[0x61]] := by
    decide +kernel
  have hids : pythonTermIds lexiconInit (some (List.replicate 4094 0x20 ++ [0x61, 0x62])) =
      lexiconInserts lexiconInit [[0x61]] := by
    rw [pythonTermIds, htokens]
  have hterms : (pythonDocument (Vector.replicate 16 0) (Vector.replicate maxFtsFields 1)
      (Vector.replicate maxFtsFields 2) (Vector.replicate embeddingDim 0) lexiconInit
      (some (List.replicate 4094 0x20 ++ [0x61, 0x62]))).termIds =
        (lexiconInserts lexiconInit [[0x61]]).1 := by
    rw [termIds_pythonDocument, hids]
  have hquery : (ftsFilterTermIds (lexiconInserts lexiconInit [[0x61]]).2 [0x61, 0x62]).1 =
      [lexiconTermHash32 [0x61, 0x62]] := by decide +kernel
  have hfits : (ShardView.fresh.insertDocument (pythonDocument (Vector.replicate 16 0)
      (Vector.replicate maxFtsFields 1) (Vector.replicate maxFtsFields 2) (Vector.replicate embeddingDim 0)
      lexiconInit (some (List.replicate 4094 0x20 ++ [0x61, 0x62])))).nextPageId ≤ invalidPageId := by
    decide +kernel
  obtain ⟨s', ⟨⟨pages', hm', hpages'⟩, -⟩, hexec⟩ := pythonInsertDocument_spec hs hholds hfits
  have hnext : (engine.shards.set (shardIndex (Vector.replicate 16 0) engine.shards.length) s')[0]? =
      some s' := by
    rw [hindex, hengine]
    rfl
  refine ⟨engine, _, _, s, s', hengine, hnext, hexec, fun hfinds => ?_⟩
  have hblank : ∀ c ∈ (List.replicate 4094 (0x20 : UInt8)).getLast?, isalnum c = false := by
    intro c hc
    rw [List.eq_of_mem_replicate (List.mem_of_getLast? hc)]
    rfl
  obtain ⟨termId, htermId, posting, hposted, -⟩ := hfinds.found [0x61, 0x62]
    ⟨List.cons_ne_nil _ _, List.all_eq_true.mp (by decide), List.replicate 4094 0x20, [],
      (List.append_nil _).symm, hblank, nofun⟩
  rw [hids, hquery, List.cons.injEq] at htermId
  obtain ⟨rfl, -⟩ := htermId
  rw [hpages'.postedAt_iff hm', ShardView.postings_insertDocument_of_not_mem _ _ (by decide +kernel)
    (by rw [hterms]; decide +kernel)] at hposted
  exact absurd hposted nofun

end FtsUring
