import GraphQL.Response.Error

/-!
# Responses

What a client gets for a request.
-/

namespace GraphQL

/-- The answer to a request.  There are data, possibly null, exactly if the request was
executed. -/
structure Response where
  data : Option Json
  errors : List ResponseError := []

namespace Response

/-- The answer to a request that is not executed. -/
def refused (errors : List ResponseError) : Response where
  data := none
  errors

def toJson (response : Response) : Json :=
  .object (
    response.data.toList.map ("data", ·) ++
    if response.errors.isEmpty then []
    else [("errors", .array (response.errors.map (·.toJson)))])

end Response

end GraphQL
