import ChainHead.Client
import ChainHead.Service.Basic

/-! The service of a client, which follows the head events of the client's node. -/

namespace ChainHead

def Client.service (c : Client) : Service :=
  { name := c.name, url := c.url, reconnectDelay := c.reconnectDelay }

end ChainHead
