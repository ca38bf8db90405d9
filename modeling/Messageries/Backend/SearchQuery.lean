import Mathlib.Data.List.Perm.Subperm
import Messageries.Backend.Search

namespace Messageries.Backend

open Text Relational Database Crypto Concurrency

/-- A term a document must have to be found. -/
inductive Term
  | participants (userId : Nat)
  | conversationId (conversationId : Nat)
  deriving DecidableEq

def Term.holds (d : Document) : Term → Bool
  | .participants u => decide (u ∈ d.participants)
  | .conversationId c => d.conversationId == c

/-- The body of a search request. -/
structure SearchBody where
  size : Nat
  content : Utf16
  filter : List Term
  fragmentSize : Nat
  numberOfFragments : Nat
  sort : List (String × String)

/-- The server of the index: how it matches a text with a query, and what it answers. -/
class SearchServer where
  matched : (query content : Utf16) → Bool
  fragments : SearchBody → (content : Utf16) → List Utf16
  hits : SearchBody → List Document → List Document

section Server

variable [SearchServer]

/-- The document matches the text, and has every term of the filter. -/
def SearchBody.admits (b : SearchBody) (d : Document) : Bool :=
  SearchServer.matched b.content d.content && b.filter.all (·.holds d)

/-- How many documents the server counts at most. -/
def trackTotalHits : Nat := 10000

def SearchBody.total (b : SearchBody) (docs : List Document) : Nat :=
  min (docs.countP b.admits) trackTotalHits

/-- The server answers with as many of the documents a request admits as it asks for. -/
structure Searches : Prop where
  found : ∀ (b : SearchBody) docs, (SearchServer.hits b docs).Subperm (docs.filter b.admits)
  size : ∀ (b : SearchBody) docs,
    (SearchServer.hits b docs).length = min b.size (docs.countP b.admits)

end Server

structure SearchInput where
  userId : Nat
  query : Utf16
  conversationId : Option Nat
  limit : Option Nat

structure Hit where
  messageId : Nat
  conversationId : Nat
  sequence : Nat
  senderId : Nat
  createdAt : Nat
  highlight : List Utf16

structure SearchResult where
  total : Nat
  hits : List Hit

/-- The request of a search: the user is one of the participants of every document it admits. -/
def searchBody (input : SearchInput) : SearchBody where
  size := min (input.limit.getD 20) 100
  content := input.query
  filter := .participants input.userId :: (input.conversationId.map Term.conversationId).toList
  fragmentSize := 120
  numberOfFragments := 2
  sort := [("createdAt", "desc")]

section Search

variable [SearchServer]

def hitOf (b : SearchBody) (d : Document) : Hit :=
  ⟨d.messageId, d.conversationId, d.sequence, d.senderId, d.createdAt,
    SearchServer.fragments b d.content⟩

/-- The search in the index `docs`. -/
def searchIndex (cfg : Settings) (docs : List Document) (input : SearchInput) : SearchResult :=
  if cfg.searchEnabled then
    ⟨(searchBody input).total docs,
      (SearchServer.hits (searchBody input) docs).map (hitOf (searchBody input))⟩
  else ⟨0, []⟩

/-- `search` of the service, when the index holds `docs`. -/
def search (cfg : Settings) (docs : List Document) (input : SearchInput) :
    Except Err SearchResult :=
  if !cfg.searchEnabled then .error (.conflict "Recherche désactivée")
  else if input.query.length < 2 then .error (.forbidden "Requête trop courte")
  else .ok (searchIndex cfg docs input)

end Search

end Messageries.Backend
