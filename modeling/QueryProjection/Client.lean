import QueryProjection.Datum

/-!
# The data client of a request

Whoever serves a request puts the client of the data-access layer into the context of the
request, under a key that both sides know.  An absent client and one that is null are the
same: there is none.
-/

namespace QueryProjection

structure MissingClient where
  key : String
  deriving DecidableEq, Repr

def MissingClient.message (missing : MissingClient) : String :=
  let key := missing.key
  s!"Unable to find the data client in the GraphQL context. Please provide it under the \"{key}\" key."

def defaultClientKey : String := "prisma"

/-- The client in a context; a request without a context has none. -/
def clientOf (context : OrderedMap String Datum) (key : String) : Except MissingClient Datum :=
  match OrderedMap.get? context key with
  | none | some .null => .error { key }
  | some client => .ok client

end QueryProjection
