/-! # Statuses

The names and the descriptions of the statuses of responses. A status without a phrase of its own
has that of its class.
-/

namespace ServiceContract

/-- The names of status codes. -/
def statusCodes : List (String × Nat) :=
  [("CONTINUE", 100), ("SWITCHING_PROTOCOLS", 101), ("OK", 200), ("CREATED", 201),
   ("ACCEPTED", 202), ("NO_CONTENT", 204), ("PARTIAL_CONTENT", 206), ("MOVED_PERMANENTLY", 301),
   ("FOUND", 302), ("SEE_OTHER", 303), ("NOT_MODIFIED", 304), ("TEMPORARY_REDIRECT", 307),
   ("PERMANENT_REDIRECT", 308), ("BAD_REQUEST", 400), ("UNAUTHORIZED", 401),
   ("PAYMENT_REQUIRED", 402), ("FORBIDDEN", 403), ("NOT_FOUND", 404),
   ("METHOD_NOT_ALLOWED", 405), ("NOT_ACCEPTABLE", 406), ("REQUEST_TIMEOUT", 408),
   ("CONFLICT", 409), ("GONE", 410), ("PRECONDITION_FAILED", 412), ("PAYLOAD_TOO_LARGE", 413),
   ("UNSUPPORTED_MEDIA_TYPE", 415), ("UNPROCESSABLE_ENTITY", 422), ("LOCKED", 423),
   ("TOO_MANY_REQUESTS", 429), ("INTERNAL_SERVER_ERROR", 500), ("NOT_IMPLEMENTED", 501),
   ("BAD_GATEWAY", 502), ("SERVICE_UNAVAILABLE", 503), ("GATEWAY_TIMEOUT", 504)]

/-- The number of a named status code. -/
def statusCode? (name : String) : Option Nat :=
  (statusCodes.find? fun c => c.1 == name).map (·.2)

/-- The phrases of well-known statuses. -/
def reasonPhrases : List (Nat × String) :=
  [(200, "OK"), (201, "Created"), (202, "Accepted"), (204, "No Content"),
   (206, "Partial Content"), (301, "Moved Permanently"), (302, "Found"), (304, "Not Modified"),
   (400, "Bad Request"), (401, "Unauthorized"), (403, "Forbidden"), (404, "Not Found"),
   (409, "Conflict"), (422, "Unprocessable Entity"), (429, "Too Many Requests"),
   (500, "Internal Server Error"), (502, "Bad Gateway"), (503, "Service Unavailable")]

/-- The phrase of a class of statuses, given by the hundreds. -/
def classPhrase : Nat → String
  | 2 => "Success"
  | 3 => "Redirection"
  | 4 => "Client Error"
  | _ => "Server Error"

/-- The phrase that describes a status. -/
def reasonPhrase (status : Nat) : String :=
  match reasonPhrases.find? fun p => p.1 == status with
  | some p => p.2
  | none => classPhrase (status / 100)

end ServiceContract
